import Wicara.Ui.State

namespace Wicara.Client

open Wicara.Core Lib

/-- What the UI takes from other crates. -/
structure Deps where
  /-- `HEXLOWER_PERMISSIVE.decode` -/
  decodeHex : List Char → Option (List UInt8)
  /-- The columns of a character; a control character has none. -/
  charWidth : Char → Option Nat

inductive KeyCode
  | tab
  | backTab
  | esc
  | pageUp
  | pageDown
  | up
  | down
  | enter
  | char (c : Char)
  | backspace
  | delete
  | left
  | right
  | home
  | endKey
  | other
  deriving DecidableEq

def KeyCode.isChar : KeyCode → Bool
  | .char _ => true
  | _ => false

inductive KeyEventKind
  | press
  | repeated
  | release
  deriving DecidableEq

structure KeyEvent where
  kind : KeyEventKind
  control : Bool
  code : KeyCode
  deriving DecidableEq

inductive MouseEventKind
  | scrollUp
  | scrollDown
  | downLeft
  | other
  deriving DecidableEq

structure MouseEvent where
  kind : MouseEventKind
  column : Nat
  row : Nat
  deriving DecidableEq

/-- `REACTIONS`, bound to the keys 1 to 5. -/
def reactions : List String := ["👍", "❤️", "😂", "😮", "😢"]

/-- What `draw_chat` writes for a row that belongs to no message. -/
def usizeMax : Nat := 2 ^ 64 - 1

/-- Where the first character starts that is drawn at `column` or after it, if `width` columns
come before the text. -/
def byteAtColumnFrom (charWidth : Char → Option Nat) (column width : Nat) : List Char → Nat
  | [] => 0
  | c :: text =>
    if column ≤ width then 0
    else c.utf8Size + byteAtColumnFrom charWidth column (width + (charWidth c).getD 0) text

def byteAtColumn (charWidth : Char → Option Nat) (text : List Char) (column : Nat) : Nat :=
  byteAtColumnFrom charWidth column 0 text

def parseKey (deps : Deps) (hex : List Char) : Option Key :=
  match deps.decodeHex (trim hex) with
  | some bytes => if h : bytes.length = 32 then some ⟨bytes, h⟩ else none
  | none => none

/-- The command that a line goes out as. -/
def message (pending : Option Pending) (peer : Key) (body : String) : UiCommand :=
  match pending with
  | some (.edit target) => .edit peer target body
  | some (.reply target) => .send peer body (some target)
  | none => .send peer body none

def Focus.next : Focus → Focus
  | .input => .peers
  | .peers => .chat
  | .chat => .input

def Focus.prev : Focus → Focus
  | .input => .chat
  | .chat => .peers
  | .peers => .input

namespace Ui

variable (deps : Deps) (ui : Ui)

def selectPeer (delta : Int) : Ui :=
  if ui.peers = [] then ui
  else
    let sel := (((ui.sel : Int) + delta) % (ui.peers.length : Int)).toNat
    { ui with sel := sel, scroll := 0, peers := ui.peers.modify sel Peer.seen }

def moveCursor (delta : Int) : Ui :=
  { ui with
    peers := ui.peers.modify ui.sel fun p =>
      if p.log = [] then p
      else { p with cursor := (max 0 (min ((p.cursor : Int) + delta) (p.log.length - 1))).toNat } }

/-- Reply, edit, delete and react, all keyed by the message the chat cursor is on. -/
def chatAction (c : Char) : Ui :=
  match ui.cursorEntry with
  | none => ui
  | some (peer, entry) =>
    match c with
    | 'r' => { ui with pending := some (.reply entry.id), focus := .input }
    | 'e' =>
      if entry.outbound ∧ ¬entry.deleted then
        let input := entry.body.toList
        { ui with
          pending := some (.edit entry.id)
          input := input
          caret := byteSize input
          focus := .input }
      else ui.report "you can only edit your own messages"
    | 'd' =>
      if entry.outbound ∧ ¬entry.deleted then ui.send (.delete peer entry.id)
      else ui.report "you can only delete your own messages"
    | c =>
      match if '1' ≤ c ∧ c ≤ '5' then reactions[c.toNat - '1'.toNat]? else none with
      | some emoji =>
        let on := !entry.reactions.any fun (e, _, mine) => e == emoji && mine
        ui.send (.react peer entry.id emoji on)
      | none => ui

def clickPeer (row : Nat) : Ui :=
  let ui := { ui with focus := .peers }
  if row < ui.peers.length then
    { ui with sel := row, scroll := 0, peers := ui.peers.modify row Peer.seen }
  else ui

def clickChat (row : Nat) : Ui :=
  let ui := { ui with focus := .chat }
  match ui.chatRows[row]? with
  | some owner =>
    if owner ≠ usizeMax then
      { ui with
        peers := ui.peers.modify ui.sel fun p =>
          { p with cursor := min owner (p.log.length - 1) } }
    else ui
  | none => ui

def clickInput (column : Nat) : Ui :=
  { ui with focus := .input, caret := byteAtColumn deps.charWidth ui.input column }

/-- Maps a click to whatever was drawn under it last frame. -/
def onMouse (ev : MouseEvent) : Ui :=
  let peers := ui.peersArea.inner
  let chat := ui.chatArea.inner
  let input := ui.inputArea.inner
  match ev.kind with
  | .scrollUp =>
    if chat.Inside ev.column ev.row then { ui with scroll := ui.scroll + 3 }
    else ui.selectPeer (-1)
  | .scrollDown =>
    if chat.Inside ev.column ev.row then { ui with scroll := ui.scroll - 3 }
    else ui.selectPeer 1
  | .downLeft =>
    if peers.Inside ev.column ev.row then ui.clickPeer (ev.row - peers.y + ui.offset)
    else if chat.Inside ev.column ev.row then ui.clickChat (ev.row - chat.y)
    else if input.Inside ev.column ev.row then ui.clickInput deps (ev.column - input.x)
    else ui
  | .other => ui

/-- Invite and kick act on the room the sidebar is on. -/
def memberCommand (verb : String) (rest : List Char) : Ui :=
  match ui.peers[ui.sel]? with
  | none => ui.report "select a room first"
  | some peer =>
    if peer.room = none then ui.report "select a room first — invite and kick act on it"
    else
      match parseKey deps rest with
      | some member =>
        ui.send (.room (if verb = "invite" then .invite peer.key member
          else .kick peer.key member))
      | none => ui.report s!"usage: /room {verb} <endpoint-id>"

def roomCommand (arg : List Char) : Ui :=
  let (verb, rest) := (splitOnce ' ' arg).getD (arg, [])
  let rest := trim rest
  let usage := "usage: /room create <name> | invite <id> | kick <id>"
  match String.ofList verb with
  | "create" =>
    if rest ≠ [] then ui.send (.room (.create (String.ofList rest))) else ui.report usage
  | "invite" => ui.memberCommand deps "invite" rest
  | "kick" => ui.memberCommand deps "kick" rest
  | _ => ui.report usage

/-- `/name <alias>` on the selected peer, or bare `/name` to forget it. -/
def nameCommand (arg : List Char) : Ui :=
  match ui.peers[ui.sel]? with
  | none => ui.report "select a peer first"
  | some peer =>
    if peer.room ≠ none then ui.report "rooms are named by whoever created them"
    else
      let aliased := if arg = [] then none else some (String.ofList arg)
      let ui := { ui with
        peers := ui.peers.modify ui.sel fun p => { p with aliased := aliased } }
      let ui := ui.report (match aliased with
        | some aliased => s!"you now call {short peer.key} {aliased}"
        | none => s!"forgot your name for {short peer.key}")
      ui.send (.name peer.key aliased)

/-- A bare `/forget` only says what would go. -/
def forgetCommand (arg : List Char) : Ui :=
  match ui.selectedKey with
  | none => ui.report "select a conversation first"
  | some peer => ui.send (.forget peer (arg = "yes".toList))

def clearCommand (arg : List Char) : Ui :=
  match ui.selectedKey with
  | none => ui.report "select a conversation first"
  | some peer => ui.send (.clear peer (arg = "yes".toList))

def whois : Ui :=
  match ui.peers[ui.sel]? with
  | none => ui.report "select a peer first"
  | some peer =>
    let hex := hex peer.key.toList
    ui.report (match peer.room, peer.aliased, peer.nick with
      | some room, _, _ => s!"#{room.name} · {room.members} members · {hex}"
      | none, some aliased, some nick =>
        s!"{aliased} (your name; they call themselves {nick}) · {hex}"
      | none, some aliased, none => s!"{aliased} (your name) · {hex}"
      | none, none, some nick => s!"{nick} — their claim, unverified; /name to set yours · {hex}"
      | none, none, none => s!"no name yet · {hex}")

def peersCommand : Ui :=
  ui.report (if ui.peers = [] then "no peers yet"
    else String.intercalate "  "
      (ui.peers.map fun p => (if p.online then "●" else "○") ++ p.label))

def nickCommand (arg : List Char) : Ui :=
  if arg = [] then ui.report "usage: /nick <name>"
  else
    let nickname := String.ofList arg
    (({ ui with nickname := nickname }).send (.nick nickname)).report s!"you are now {nickname}"

def membersCommand : Ui :=
  match ui.peers[ui.sel]? with
  | none => ui.report "select a room first"
  | some p =>
    if p.room ≠ none then { ui with members := true } else ui.report "/members is for rooms"

def leaveCommand : Ui :=
  match ui.peers[ui.sel]? with
  | none => ui.report "select a room first"
  | some p =>
    if p.room ≠ none then ui.send (.room (.leave p.key))
    else ui.report "/leave is for rooms — use /forget for a peer"

def mouseCommand : Ui :=
  let ui := { ui with mouse := !ui.mouse }
  ui.report (if ui.mouse then "mouse on — click to move around; /mouse again to select text"
    else "mouse off — drag to select and copy; /mouse to turn it back on")

def connectCommand (arg : List Char) : Ui :=
  match parseKey deps arg with
  | some peer => ui.send (.connect peer)
  | none => ui.report "usage: /connect <endpoint-id>"

def sendCommand (arg : List Char) : Ui :=
  if arg = [] then ui.report "usage: /send <path>"
  else
    match ui.selectedKey with
    | none => ui.report "select a peer first"
    | some peer => ui.send (.sendFile peer (String.ofList arg))

/-- The flag is false when the app should quit. -/
def slash (rest : List Char) : Ui × Bool :=
  let (cmd, arg) := (splitOnce ' ' rest).getD (rest, [])
  let arg := trim arg
  match String.ofList cmd with
  | "quit" => (ui.send .quit, false)
  | "whoami" => (ui.report s!"{ui.nickname} — {ui.me} (copied)", true)
  | "peers" => (ui.peersCommand, true)
  | "nick" => (ui.nickCommand arg, true)
  | "room" => (ui.roomCommand deps arg, true)
  | "name" => (ui.nameCommand arg, true)
  | "whois" => (ui.whois, true)
  | "help" => ({ ui with help := true }, true)
  | "net" => ({ ui with net := true }, true)
  | "members" => (ui.membersCommand, true)
  | "leave" => (ui.leaveCommand, true)
  | "forget" => (ui.forgetCommand arg, true)
  | "clear" => (ui.clearCommand arg, true)
  | "wipe" => (ui.send (.wipe (arg = "yes".toList)), true)
  | "mouse" => (ui.mouseCommand, true)
  | "connect" => (ui.connectCommand deps arg, true)
  | "send" => (ui.sendCommand arg, true)
  | other => (ui.report s!"unknown command /{other}", true)

/-- `mem::take` of the line. -/
def taken : Ui := { ui with input := [], caret := 0 }

def submit : Ui × Bool :=
  let body := trim ui.input
  let ui := ui.taken
  match body with
  | '/' :: rest => ui.slash deps rest
  | [] => ({ ui with pending := none }, true)
  | body =>
    match ui.selectedKey with
    | none => (ui.report "no peer selected — nothing to send to", true)
    | some peer =>
      let ui := ui.send (message ui.pending peer (String.ofList body))
      ({ ui with pending := none, scroll := 0 }, true)

/-- What a key makes of the text on either side of the caret; none if the caret is inside of
a character, which would panic. -/
def atCaret (edit : Ui → List Char → List Char → Ui) : Option Ui :=
  (splitAtByte ui.caret ui.input).map fun (l, r) => edit ui l r

def insert (c : Char) (ui : Ui) (l r : List Char) : Ui :=
  { ui with input := l ++ c :: r, caret := ui.caret + c.utf8Size }

def backspace (ui : Ui) (l r : List Char) : Ui :=
  match l.getLast? with
  | some c => { ui with input := l.dropLast ++ r, caret := ui.caret - c.utf8Size }
  | none => ui

def delete (ui : Ui) (l r : List Char) : Ui := { ui with input := l ++ r.tail }

def left (ui : Ui) (l _ : List Char) : Ui :=
  match l.getLast? with
  | some c => { ui with caret := ui.caret - c.utf8Size }
  | none => ui

def right (ui : Ui) (_ r : List Char) : Ui :=
  match r with
  | c :: _ => { ui with caret := ui.caret + c.utf8Size }
  | [] => ui

/-- A key that edits the line, if that is where the focus is. -/
def onLine (edit : Ui → List Char → List Char → Ui) : Option (Ui × Bool) :=
  if ui.focus = .input then (ui.atCaret edit).map (·, true) else some (ui, true)

/-- A key that dismisses nothing. -/
def press (code : KeyCode) : Option (Ui × Bool) :=
  match code with
  | .tab => some ({ ui with focus := ui.focus.next }, true)
  | .backTab => some ({ ui with focus := ui.focus.prev }, true)
  | .esc => some ({ ui with pending := none, input := [], caret := 0 }, true)
  | .pageUp => some ({ ui with scroll := ui.scroll + 5 }, true)
  | .pageDown => some ({ ui with scroll := ui.scroll - 5 }, true)
  | .up =>
    match ui.focus with
    | .peers => some (ui.selectPeer (-1), true)
    | .chat => some (ui.moveCursor (-1), true)
    | .input => some ({ ui with scroll := ui.scroll + 1 }, true)
  | .down =>
    match ui.focus with
    | .peers => some (ui.selectPeer 1, true)
    | .chat => some (ui.moveCursor 1, true)
    | .input => some ({ ui with scroll := ui.scroll - 1 }, true)
  | .enter => some (ui.submit deps)
  | .backspace => ui.onLine backspace
  | .delete => if ui.caret < byteSize ui.input then ui.onLine delete else some (ui, true)
  | .left => ui.onLine left
  | .right => ui.onLine right
  | .home => some ({ ui with caret := 0 }, true)
  | .endKey => some ({ ui with caret := byteSize ui.input }, true)
  | .other => some (ui, true)
  | .char c =>
    match ui.focus with
    | .chat => some (ui.chatAction c, true)
    | .input => ui.onLine (insert c)
    | .peers => some (ui, true)

/-- The chat pane, with nothing over it. -/
def shown : Ui := { ui with help := false, members := false, net := false }

/-- The flag is false when the app should quit. -/
def onKey (key : KeyEvent) : Option (Ui × Bool) :=
  if key.kind ≠ .press then some (ui, true)
  else if key.control ∧ key.code = .char 'c' then some (ui.send .quit, false)
  else
    -- The key that dismissed it should not also do something else.
    if (ui.help ∨ ui.members ∨ ui.net) ∧ ¬key.code.isChar then some (ui.shown, true)
    else ui.shown.press deps key.code

end Ui

/-- What can happen to a UI.  A frame that is drawn leaves behind where it put everything,
which follows from the size of the terminal. -/
inductive Input
  | key (ev : KeyEvent)
  | mouse (ev : MouseEvent)
  | event (now : UInt64) (ev : UiEvent)
  | drawn (peersArea chatArea inputArea : Rect) (offset : Nat) (chatRows : List Nat) (scroll : Nat)

def Ui.step (deps : Deps) (ui : Ui) : Input → Option Ui
  | .key ev => (ui.onKey deps ev).map Prod.fst
  | .mouse ev => some (ui.onMouse deps ev)
  | .event now ev => ui.apply now ev
  | .drawn peersArea chatArea inputArea offset chatRows scroll =>
    some { ui with
      peersArea := peersArea
      chatArea := chatArea
      inputArea := inputArea
      offset := offset
      chatRows := chatRows
      scroll := scroll }

end Wicara.Client
