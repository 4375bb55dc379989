import BenmoshOS.Lib.Exec

/-!
# The console: a ring of rows, a view and the escape-sequence parser

`print.c` keeps the rows that have been written in a ring of `max_history_rows` rows and
copies the 25 rows in view to video memory after every change.  Characters go through a
parser for colour sequences first, whose state is kept from call to call.
-/

namespace BenmoshOS.Print

/-- The values of `ansi_state`: 0, 1 behind an escape character, 2 behind the bracket. -/
inductive AnsiState where
  | idle
  | escape
  | code
  deriving DecidableEq, Repr

/-- The variables of `print.c`, the video memory and the position of the hardware
cursor. -/
structure Console where
  maxHistoryRows : Nat
  lineBuffer : Nat → Nat → Nat
  lineLengths : Nat → Nat
  absoluteWriteRow : Nat
  writeCol : Nat
  viewStartRow : Nat
  currentColor : Nat
  ansiState : AnsiState
  ansiCode : Nat
  videoMemory : Nat → Nat
  cursor : Nat

/-- The console before the kernel gives it a larger ring. -/
def bootConsole : Console :=
  { maxHistoryRows := 25, lineBuffer := fun _ _ => 0, lineLengths := fun _ => 0,
    absoluteWriteRow := 0, writeCol := 0, viewStartRow := 0, currentColor := 0x0F,
    ansiState := .idle, ansiCode := 0, videoMemory := fun _ => 0, cursor := 0 }

/-- `MAX_ROW`. -/
def maxRow : Nat := 25

/-- `MAX_COL`. -/
def maxCol : Nat := 80

/-- The cell that shows a character in the current colour. -/
def Console.cell (c : Console) (character : Nat) : Nat := character ||| c.currentColor * 256

/-- `blank_cell`. -/
def Console.blankCell (c : Console) : Nat := c.cell 32

/-- `memsetw(line_buffer[row], blank_cell, MAX_COL)`. -/
def Console.wipeRow (c : Console) (row blankCell : Nat) : Console :=
  { c with lineBuffer := fun r col =>
      if r = row ∧ col < maxCol then blankCell else c.lineBuffer r col }

/-- `line_buffer[row][col] = cell`. -/
def Console.setCell (c : Console) (row col cell : Nat) : Console :=
  { c with lineBuffer := fun r k => if r = row ∧ k = col then cell else c.lineBuffer r k }

/-- `line_lengths[row] = length`. -/
def Console.setLength (c : Console) (row length : Nat) : Console :=
  { c with lineLengths := Function.update c.lineLengths row length }

/-- The oldest row that is still in the ring. -/
def Console.oldestRow (c : Console) : Nat :=
  if c.maxHistoryRows ≤ c.absoluteWriteRow then c.absoluteWriteRow - c.maxHistoryRows + 1 else 0

/-- What `update_screen` shows in a cell of the screen. -/
def Console.screenCell (c : Console) (row col : Nat) : Nat :=
  let absRow := wrap32 (c.viewStartRow + row)
  if c.oldestRow ≤ absRow ∧ absRow ≤ c.absoluteWriteRow then
    c.lineBuffer (absRow % c.maxHistoryRows) col
  else c.blankCell

/-- `update_cursor`: the position that is sent to the hardware, cut to 16 bits. -/
def updateCursor (x y : Nat) : Nat := (y * maxCol + x) % 2 ^ 16

/-- Where `update_screen` puts the cursor: behind the screen when the row that is written
is not in view. -/
def Console.cursorPosition (c : Console) : Nat :=
  let screenCursorY := wrap32 (c.absoluteWriteRow + 2 ^ 32 - c.viewStartRow)
  if screenCursorY < maxRow then updateCursor c.writeCol screenCursorY
  else updateCursor 0 (maxRow + 1)

/-- `update_screen`. -/
def Console.updateScreen (c : Console) : Console :=
  { c with
    videoMemory := fun i =>
      if i < maxRow * maxCol then c.screenCell (i / maxCol) (i % maxCol) else c.videoMemory i
    cursor := c.cursorPosition }

/-- `screen_clear`. -/
def Console.screenClear (c : Console) : Console :=
  Console.updateScreen { c with
    lineBuffer := fun r col =>
      if r < c.maxHistoryRows ∧ col < maxCol then c.blankCell else c.lineBuffer r col
    lineLengths := fun r => if r < c.maxHistoryRows then 0 else c.lineLengths r
    absoluteWriteRow := 0
    writeCol := 0
    viewStartRow := 0 }

/-- The foreground colours of `apply_ansi_color`. -/
def ansiForeground : Nat → Option Nat
  | 30 => some 0x00
  | 31 => some 0x04
  | 32 => some 0x02
  | 33 => some 0x0E
  | 34 => some 0x01
  | 35 => some 0x05
  | 36 => some 0x03
  | 37 => some 0x07
  | 90 => some 0x08
  | 91 => some 0x0C
  | 92 => some 0x0A
  | 93 => some 0x0E
  | 94 => some 0x09
  | 95 => some 0x0D
  | 96 => some 0x0B
  | 97 => some 0x0F
  | _ => none

/-- `apply_ansi_color`. -/
def Console.applyAnsiColor (c : Console) (code : Nat) : Console :=
  if code = 0 then { c with currentColor := 0x0F }
  else match ansiForeground code with
    | some color => { c with currentColor := c.currentColor &&& 0xF0 ||| color }
    | none => c

/-- `set_print_color`: the cell at the cursor takes the new colour, too. -/
def Console.setPrintColor (c : Console) (color : Nat) : Console :=
  let c := { c with currentColor := color % 256 }
  let row := c.absoluteWriteRow % c.maxHistoryRows
  let cell := c.cell (c.lineBuffer row c.writeCol % 256)
  let c := c.setCell row c.writeCol cell
  let screenY := wrap32 (c.absoluteWriteRow + 2 ^ 32 - c.viewStartRow)
  if screenY < maxRow then
    { c with videoMemory := Function.update c.videoMemory (screenY * maxCol + c.writeCol) cell }
  else c

/-! ## `print_char` -/

/-- `'\033'`. -/
def esc : UInt8 := 27

/-- The branch of `print_char` for `'\n'`. -/
def Console.newline (c : Console) : Console :=
  let blankCell := c.blankCell
  let c := c.setLength (c.absoluteWriteRow % c.maxHistoryRows) c.writeCol
  let c := { c with writeCol := 0, absoluteWriteRow := wrap32 (c.absoluteWriteRow + 1) }
  c.wipeRow (c.absoluteWriteRow % c.maxHistoryRows) blankCell

/-- The branch of `print_char` for `'\b'`. -/
def Console.backspace (c : Console) : Console :=
  let blankCell := c.blankCell
  if 0 < c.writeCol then
    let c := { c with writeCol := c.writeCol - 1 }
    c.setCell (c.absoluteWriteRow % c.maxHistoryRows) c.writeCol blankCell
  else if 0 < c.absoluteWriteRow then
    let c := { c with absoluteWriteRow := c.absoluteWriteRow - 1 }
    let row := c.absoluteWriteRow % c.maxHistoryRows
    let length := c.lineLengths row
    let c := { c with writeCol := if maxCol ≤ length then maxCol - 1 else length }
    c.setCell row c.writeCol blankCell
  else c

/-- The branch of `print_char` for the other characters. -/
def Console.putCell (c : Console) (character : UInt8) : Console :=
  let blankCell := c.blankCell
  let row := c.absoluteWriteRow % c.maxHistoryRows
  let c := c.setCell row c.writeCol (c.cell character.toNat)
  let c := { c with writeCol := c.writeCol + 1 }
  if maxCol ≤ c.writeCol then
    let c := c.setLength row maxCol
    let c := { c with writeCol := 0, absoluteWriteRow := wrap32 (c.absoluteWriteRow + 1) }
    c.wipeRow (c.absoluteWriteRow % c.maxHistoryRows) blankCell
  else c

/-- The auto-scroll of `print_char`. -/
def Console.follow (c : Console) : Console :=
  { c with
    viewStartRow := if wrap32 (c.viewStartRow + maxRow) ≤ c.absoluteWriteRow then
        wrap32 (c.absoluteWriteRow + 2 ^ 32 - maxRow + 1)
      else c.viewStartRow }

/-- `print_char` behind the parser. -/
def Console.write (c : Console) (character : UInt8) : Console :=
  let c := if character = 10 then c.newline
    else if character = 8 then c.backspace
    else c.putCell character
  c.follow.updateScreen

/-- `print_char`, as far as the console is concerned. -/
def Console.printChar (c : Console) (character : UInt8) : Console :=
  match c.ansiState with
  | .idle =>
      if character = esc then { c with ansiState := .escape } else c.write character
  | .escape =>
      if character = 91 then { c with ansiState := .code, ansiCode := 0 }
      else Console.write { c with ansiState := .idle } character
  | .code =>
      if 48 ≤ character ∧ character ≤ 57 then
        { c with ansiCode := wrap32 (c.ansiCode * 10 + (character.toNat - 48)) }
      else if character = 109 then { c.applyAnsiColor c.ansiCode with ansiState := .idle }
      else Console.write { c with ansiState := .idle } character

/-- `puts`, for the characters of a string. -/
def Console.puts (c : Console) (str : List UInt8) : Console := str.foldl Console.printChar c

/-! ## Scrolling -/

/-- `scroll_history_up`, for the 32-bit value of `lines`. -/
def Console.scrollHistoryUp (c : Console) (lines : Nat) : Console :=
  let c := { c with viewStartRow := if lines ≤ c.viewStartRow then c.viewStartRow - lines else 0 }
  let c := { c with
    viewStartRow := if c.viewStartRow < c.oldestRow then c.oldestRow else c.viewStartRow }
  c.updateScreen

/-- `scroll_history_down`, for the 32-bit value of `lines`. -/
def Console.scrollHistoryDown (c : Console) (lines : Nat) : Console :=
  let maxViewStart :=
    if maxRow - 1 ≤ c.absoluteWriteRow then c.absoluteWriteRow - (maxRow - 1) else 0
  let c := { c with viewStartRow := wrap32 (c.viewStartRow + lines) }
  let c := { c with
    viewStartRow := if maxViewStart < c.viewStartRow then maxViewStart else c.viewStartRow }
  c.updateScreen

/-! ## The parser -/

/-- The state of the parser after a character. -/
def AnsiState.next (state : AnsiState) (character : UInt8) : AnsiState :=
  match state with
  | .idle => if character = esc then .escape else .idle
  | .escape => if character = 91 then .code else .idle
  | .code => if 48 ≤ character ∧ character ≤ 57 then .code else .idle

theorem backspace_ansiState (c : Console) : c.backspace.ansiState = c.ansiState := by
  unfold Console.backspace
  simp only [apply_ite Console.ansiState, Console.setCell, ite_self]

theorem putCell_ansiState (c : Console) (character : UInt8) :
    (c.putCell character).ansiState = c.ansiState := by
  exact (apply_ite Console.ansiState _ _ _).trans (ite_self _)

@[simp] theorem write_ansiState (c : Console) (character : UInt8) :
    (c.write character).ansiState = c.ansiState := by
  unfold Console.write
  simp only [Console.updateScreen, Console.follow]
  by_cases hn : character = 10
  · rw [if_pos hn]
    rfl
  · rw [if_neg hn]
    by_cases hb : character = 8
    · rw [if_pos hb, backspace_ansiState]
    · rw [if_neg hb, putCell_ansiState]

/-- The parser runs through its states whatever else a character does. -/
@[simp] theorem printChar_ansiState (c : Console) (character : UInt8) :
    (c.printChar character).ansiState = c.ansiState.next character := by
  unfold Console.printChar AnsiState.next
  cases hstate : c.ansiState with
  | idle =>
      dsimp only
      split
      · rfl
      · rw [write_ansiState, hstate]
  | escape =>
      dsimp only
      split
      · rfl
      · rw [write_ansiState]
  | code =>
      dsimp only
      split
      · rfl
      · split
        · rfl
        · rw [write_ansiState]

end BenmoshOS.Print
