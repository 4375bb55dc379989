import BenmoshOS.Klib.Strings
import BenmoshOS.Print.Console

/-!
# The shell: line editor, history and tokenizer

`shell.c` up to the commands themselves.  A key changes the line that is being typed, moves
through the history or submits the line, which is then saved, cut into words in place and
handed to a command.  What a command does to the console is a parameter (`Env.dispatch`), and
so is what the local arrays of the functions hold before they are written.

The arrays of characters are `Bytes`, and a result `none` stands for a loop that runs out of
its array.
-/

namespace BenmoshOS.Shell

open Print (Console)
open Klib

/-- `MAX_HISTORY`. -/
def maxHistory : Nat := 256

/-- `MAX_LINE_LENGTH`. -/
def maxLineLength : Nat := 256

/-- `MAX_ARGS`. -/
def maxArgs : Nat := 32

/-- The bytes of a string literal. -/
def ascii (str : String) : List UInt8 := str.toList.map fun c => UInt8.ofNat c.toNat

/-- The variables of `shell.c`, and the console. -/
structure State where
  history : Nat → Bytes
  historyCount : Nat
  historyPos : Int
  liveLineBackup : Bytes
  keyBuffer : Bytes
  bufferIdx : Int
  console : Console

/-- The variables at the start. -/
def State.init (console : Console) : State :=
  { history := fun _ _ => 0, historyCount := 0, historyPos := -1, liveLineBackup := fun _ => 0,
    keyBuffer := fun _ => 0, bufferIdx := 0, console := console }

/-- What the functions depend on beyond these: the commands, given `argv`, `argc` and the
memory of `command`, and the old contents of `argv` and `cmd_copy`. -/
structure Env where
  dispatch : (Nat → Option Nat) → Nat → Bytes → Console → Console
  argv : Nat → Option Nat
  cmdCopy : Bytes

/-! ## The history -/

/-- The loop of `history_save` that moves the entries down, from `history[i]` on. -/
def shiftDown : Nat → (Nat → Bytes) → Option (Nat → Bytes)
  | 0, history => some history
  | i + 1, history =>
      (strcpy maxLineLength (history (i + 1)) (history i)).bind fun row =>
        shiftDown i (Function.update history (i + 1) row)

/-- `history_count > 0 && strcmp(history[0], cmd) == 0`. -/
def State.repeatsLast (s : State) (cmd : Bytes) : Option Bool :=
  if 0 < s.historyCount then
    (strcmp maxLineLength (s.history 0) cmd).map fun order => decide (order = 0)
  else some false

/-- `history_save`. -/
def State.historySave (s : State) (cmd : Option Bytes) : Option State :=
  match cmd with
  | none => some s
  | some cmd =>
      if cmd 0 = 0 then some s
      else (s.repeatsLast cmd).bind fun repeats =>
        if repeats then some s
        else (shiftDown (maxHistory - 1) s.history).map fun history =>
          let row := strncpy (history 0) cmd (maxLineLength - 1)
          let row := Function.update row (maxLineLength - 1) 0
          { s with
            history := Function.update history 0 row
            historyCount :=
              if s.historyCount < maxHistory then s.historyCount + 1 else s.historyCount }

/-! ## The line -/

/-- Erasing a character on the screen. -/
def State.eraseChar (s : State) : State :=
  { s with console := ((s.console.printChar 8).printChar 32).printChar 8 }

/-- The first loop of `shell_replace_line`, for at most `left` rounds. -/
def eraseLine : Nat → State → State
  | 0, s => s
  | left + 1, s =>
      if 0 < s.bufferIdx then eraseLine left { s.eraseChar with bufferIdx := s.bufferIdx - 1 }
      else s

/-- The second loop of `shell_replace_line` from index `k` on, with `left` bytes left in
front of the last one, and the end of the function. -/
def copyLine (newLine : Bytes) : Nat → Nat → State → State
  | 0, k, s => { s with keyBuffer := Function.update s.keyBuffer k 0, bufferIdx := k }
  | left + 1, k, s =>
      if newLine k ≠ 0 then
        copyLine newLine left (k + 1)
          { s with
            keyBuffer := Function.update s.keyBuffer k (newLine k)
            console := s.console.printChar (newLine k) }
      else { s with keyBuffer := Function.update s.keyBuffer k 0, bufferIdx := k }

/-- `shell_replace_line`. -/
def State.shellReplaceLine (s : State) (newLine : Bytes) : State :=
  copyLine newLine (maxLineLength - 1) 0 (eraseLine s.bufferIdx.toNat s)

/-- `history_load`. -/
def State.historyLoad (s : State) (pos : Int) : State :=
  if pos < 0 ∨ s.historyCount ≤ pos then s else s.shellReplaceLine (s.history pos.toNat)

/-! ## The commands -/

/-- The local variables of `execute_command`.  An entry of `argv` is an index into `command`,
or `none` for `NULL`. -/
structure Tokens where
  command : Bytes
  argv : Nat → Option Nat
  argc : Nat
  inWord : Bool

/-- The characters between words. -/
def isSpace (c : UInt8) : Bool := c = 32 ∨ c = 9 ∨ c = 10 ∨ c = 13

/-- How the loop of `execute_command` ends. -/
inductive Scan where
  | done (t : Tokens)
  | tooMany
  | overrun

/-- The loop of `execute_command` from index `i` on, with `room` bytes left in the buffer. -/
def tokenizeFrom : Nat → Nat → Tokens → Scan
  | 0, _, _ => .overrun
  | room + 1, i, t =>
      if t.command i = 0 then .done t
      else if isSpace (t.command i) then
        tokenizeFrom room (i + 1)
          { t with command := Function.update t.command i 0, inWord := false }
      else if t.inWord = false then
        if maxArgs - 1 ≤ t.argc then .tooMany
        else tokenizeFrom room (i + 1)
          { t with inWord := true, argv := Function.update t.argv t.argc i, argc := t.argc + 1 }
      else tokenizeFrom room (i + 1) t

/-- `execute_command` up to `argv[argc] = NULL`, for a string in a buffer of `size` bytes. -/
def tokenize (env : Env) (size : Nat) (command : Bytes) : Scan :=
  match tokenizeFrom size 0 ⟨command, env.argv, 0, false⟩ with
  | .done t => .done { t with argv := Function.update t.argv t.argc none }
  | .tooMany => .tooMany
  | .overrun => .overrun

/-- `execute_command`. -/
def executeCommand (env : Env) (size : Nat) (command : Option Bytes) (console : Console) :
    Option Console :=
  match command with
  | none => some console
  | some command =>
      match tokenize env size command with
      | .overrun => none
      | .tooMany => some (console.puts (ascii "shell: too many arguments\n"))
      | .done t =>
          if t.argc = 0 then some console
          else some (env.dispatch t.argv t.argc t.command console)

/-! ## Keys -/

/-- The prompt. -/
def State.prompt (s : State) : State :=
  let console := s.console.setPrintColor 0x0E
  let console := console.puts (ascii "BenmoshOS> ")
  { s with console := console.setPrintColor 0x0F }

/-- The lines of `shell_keyboard` that reset the buffer, for Ctrl+C and for Enter. -/
def State.reset (s : State) : State :=
  { s with
    bufferIdx := 0
    keyBuffer := Function.update s.keyBuffer 0 0
    liveLineBackup := Function.update s.liveLineBackup 0 0
    historyPos := -1 }

/-- `shell_keyboard` for Ctrl+C. -/
def State.cancel (s : State) : State :=
  let s := { s with console := s.console.puts (ascii "^C\n") }
  s.reset.prompt

/-- The lines of `shell_keyboard` that back up the live line. -/
def State.backUp (s : State) : Option State :=
  let s := { s with keyBuffer := Function.update s.keyBuffer s.bufferIdx.toNat 0 }
  (strcpy maxLineLength s.liveLineBackup s.keyBuffer).map fun backup =>
    { s with liveLineBackup := backup }

/-- `shell_keyboard` for the Up key. -/
def State.up (s : State) : Option State :=
  if s.historyCount = 0 then some s
  else
    let next := if s.historyPos < 0 then 0 else s.historyPos + 1
    if next < s.historyCount then
      (if s.historyPos < 0 then s.backUp else some s).map fun s =>
        { s with historyPos := next }.historyLoad next
    else some s

/-- `shell_keyboard` for the Down key. -/
def State.down (s : State) : State :=
  if 0 < s.historyPos then
    { s with historyPos := s.historyPos - 1 }.historyLoad (s.historyPos - 1)
  else if s.historyPos = 0 then
    { s with historyPos := -1 }.shellReplaceLine s.liveLineBackup
  else s

/-- `shell_keyboard` for the Enter key. -/
def State.enter (env : Env) (s : State) : Option State :=
  let s := { s with console := s.console.printChar 10 }
  let s := { s with keyBuffer := Function.update s.keyBuffer s.bufferIdx.toNat 0 }
  (s.historySave (some s.keyBuffer)).bind fun s =>
    (strcpy maxLineLength env.cmdCopy s.keyBuffer).bind fun cmdCopy =>
      let s := s.reset
      (executeCommand env maxLineLength (some cmdCopy) s.console).map fun console =>
        { s with console := console }.prompt

/-- `shell_keyboard` for the backspace key. -/
def State.backspace (s : State) : State :=
  if 0 < s.bufferIdx then
    State.eraseChar { s with
      bufferIdx := s.bufferIdx - 1
      keyBuffer := Function.update s.keyBuffer (s.bufferIdx - 1).toNat 0 }
  else s

/-- `shell_keyboard` for the other keys. -/
def State.append (s : State) (c : UInt8) : State :=
  if s.bufferIdx < maxLineLength - 1 then
    { s with
      keyBuffer := Function.update (Function.update s.keyBuffer s.bufferIdx.toNat c)
        (s.bufferIdx + 1).toNat 0
      bufferIdx := s.bufferIdx + 1
      console := s.console.printChar c }
  else s

/-- `shell_keyboard`, for what `kbd_getchar` returns. -/
def State.shellKeyboard (env : Env) (s : State) (c : UInt8) : Option State :=
  if c = 0 then some s
  else if c = 3 then some s.cancel
  else if c = 0x11 then s.up
  else if c = 0x12 then some s.down
  else if c = 10 then s.enter env
  else if c = 8 then some s.backspace
  else some (s.append c)

/-- The loop of `shell_run`, for a sequence of returned characters. -/
def State.shellLoop (env : Env) (s : State) : List UInt8 → Option State
  | [] => some s
  | c :: rest => (s.shellKeyboard env c).bind fun s =>
      State.shellLoop env { s with console := s.console.setPrintColor 0x0F } rest

/-- `shell_run`, for a sequence of returned characters. -/
def shellRun (env : Env) (console : Console) (keys : List UInt8) : Option State :=
  (State.init console).prompt.shellLoop env keys

end BenmoshOS.Shell
