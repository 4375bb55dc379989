import BenmoshOS.Lib.Fifo
import BenmoshOS.Print.Console

/-!
# The keyboard driver: `drivers/keyboard/keyboard.c`

The interrupt handler turns scancodes into characters and puts them into a queue of 128
cells; `keyboard_pop_char` and `kbd_getchar` take them out again.  The two modifier flags are
variables of the handler alone.
-/

namespace BenmoshOS.Keyboard

open Print (Console)

/-- The variables of `keyboard.c`, and the console that Page Up and Page Down scroll. -/
structure State where
  shiftPressed : Nat
  ctrlPressed : Nat
  kbd : Fifo UInt8
  console : Console

/-- The state before the first interrupt. -/
def boot (console : Console) : State :=
  { shiftPressed := 0, ctrlPressed := 0, kbd := ⟨fun _ => 0, 0, 0⟩, console := console }

/-- `KBD_BUFFER_SIZE`. -/
def kbdBufferSize : Nat := 128

/-! ## The maps -/

/-- The characters of a row of keys. -/
def keys (row : String) : List UInt8 := row.toList.map fun c => UInt8.ofNat c.toNat

/-- The entries of `scancode_map_normal` that are written out. -/
def normalKeys : List UInt8 :=
  [0, 27] ++ keys "1234567890-=" ++ [8] ++
  [9] ++ keys "qwertyuiop[]" ++ [10] ++
  [0] ++ keys "asdfghjkl;'`" ++ [0] ++ keys "\\" ++
  keys "zxcvbnm,./" ++ [0] ++ keys "*" ++ [0] ++ keys " "

/-- The entries of `scancode_map_shifted` that are written out. -/
def shiftedKeys : List UInt8 :=
  [0, 27] ++ keys "!@#$%^&*()_+" ++ [8] ++
  [9] ++ keys "QWERTYUIOP\x7b\x7d" ++ [10] ++
  [0] ++ keys "ASDFGHJKL:\"~" ++ [0] ++ keys "|" ++
  keys "ZXCVBNM<>?" ++ [0] ++ keys "*" ++ [0] ++ keys " "

/-- `scancode_map_normal`. -/
def scancodeMapNormal (scancode : UInt8) : UInt8 := normalKeys.getD scancode.toNat 0

/-- `scancode_map_shifted`. -/
def scancodeMapShifted (scancode : UInt8) : UInt8 := shiftedKeys.getD scancode.toNat 0

/-! ## Taking characters out -/

/-- The read of both functions below: the character and the state afterwards, 0 when the
queue is empty. -/
def popFrom (s : State) : UInt8 × State :=
  if s.kbd.head = s.kbd.tail then (0, s)
  else (s.kbd.cells s.kbd.tail, { s with kbd := s.kbd.pop kbdBufferSize })

/-- `keyboard_pop_char`. -/
def keyboardPopChar (s : State) : UInt8 × State := popFrom s

/-- `kbd_getchar`. -/
def kbdGetchar (s : State) : UInt8 × State := popFrom s

/-! ## The interrupt handler -/

/-- `ENTER`. -/
def enter : UInt8 := 0x1C

/-- `BACKSPACE`. -/
def backspace : UInt8 := 0x0E

/-- The make code of the left shift key. -/
def leftShift : UInt8 := 0x2A

/-- The make code of the right shift key. -/
def rightShift : UInt8 := 0x36

/-- The make code of the control key. -/
def control : UInt8 := 0x1D

/-- The character of a make code that reaches the conversion, 0 when there is none. -/
def toAscii (s : State) (scancode : UInt8) : UInt8 :=
  if scancode = enter then 10
  else if scancode = backspace then 8
  else if s.ctrlPressed ≠ 0 ∧ scancode = 0x2E then 3
  else if scancode = 72 then 0x11
  else if scancode = 80 then 0x12
  else if scancode < 128 then
    if s.shiftPressed ≠ 0 then scancodeMapShifted scancode else scancodeMapNormal scancode
  else 0

/-- The end of the handler: the character goes into the queue unless that is full. -/
def enqueue (s : State) (c : UInt8) : State :=
  if c ≠ 0 then
    if (s.kbd.head + 1) % kbdBufferSize ≠ s.kbd.tail then
      { s with kbd := s.kbd.push kbdBufferSize c }
    else s
  else s

/-- `keyboard_handler`, for the byte read from port 0x60. -/
def keyboardHandler (scancode : UInt8) (s : State) : State :=
  if scancode &&& 0x80 ≠ 0 then
    let keyReleased := scancode &&& 0x7F
    if keyReleased = leftShift ∨ keyReleased = rightShift then { s with shiftPressed := 0 }
    else if keyReleased = control then { s with ctrlPressed := 0 }
    else s
  else if scancode = leftShift ∨ scancode = rightShift then { s with shiftPressed := 1 }
  else if scancode = control then { s with ctrlPressed := 1 }
  else if scancode = 0x49 then { s with console := s.console.scrollHistoryUp 5 }
  else if scancode = 0x51 then { s with console := s.console.scrollHistoryDown 5 }
  else enqueue s (toAscii s scancode)

end BenmoshOS.Keyboard
