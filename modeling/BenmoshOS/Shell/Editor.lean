import BenmoshOS.Shell.History
import BenmoshOS.Shell.Tokenizer

/-!
# The shell: the line editor

`shell_keyboard` keeps the line in `key_buffer` and `buffer_idx`, and `history_pos` and
`live_line_backup` while the user moves through the history.  What it is for is said by
`Editor`: a line that is typed at its end, and a history that is gone through from the live
line to the oldest kept line and back.  The shell refines it (`Refines`), and going back and
forth as far restores the live line.
-/

namespace BenmoshOS.Shell

open Klib

/-! ## The editor -/

/-- What a key is for. -/
inductive Key where
  | idle
  | cancel
  | older
  | newer
  | enter
  | delete
  | char (c : UInt8)
  deriving DecidableEq, Repr

/-- The key for what `kbd_getchar` returns. -/
def Key.ofChar (c : UInt8) : Key :=
  if c = 0 then .idle
  else if c = 3 then .cancel
  else if c = 0x11 then .older
  else if c = 0x12 then .newer
  else if c = 10 then .enter
  else if c = 8 then .delete
  else .char c

/-- A line editor: the line, the kept lines with the newest first, the one that is shown
(`none` for the live line), and the live line meanwhile. -/
structure Editor where
  line : List UInt8
  history : List (List UInt8)
  pos : Option Nat
  saved : List UInt8
  deriving DecidableEq, Repr

/-- The editor at the start. -/
def Editor.init : Editor := ⟨[], [], none, []⟩

/-- A kept line, which must not be too old. -/
def Editor.recall (e : Editor) (i : Nat) : Option (List UInt8) :=
  if i < maxHistory then e.history[i]? else none

/-- The number of lines that can be recalled. -/
def Editor.depth (e : Editor) : Nat := min maxHistory e.history.length

theorem recall_eq (e : Editor) (i : Nat) :
    e.recall i = if i < e.depth then some (e.history.getD i []) else none := by
  unfold Editor.recall Editor.depth
  rw [List.getD_eq_getElem?_getD]
  by_cases hi : i < e.history.length
  · rw [List.getElem?_eq_getElem hi, Option.getD_some]
    exact if_congr (by omega) rfl rfl
  · rw [List.getElem?_eq_none (Nat.le_of_not_lt hi), ite_self, if_neg (by omega)]

/-- The position of the next older line. -/
def Editor.olderPos (e : Editor) : Nat :=
  match e.pos with
  | none => 0
  | some i => i + 1

/-- The editor after a key. -/
def Editor.press (e : Editor) : Key → Editor
  | .idle => e
  | .cancel => { e with line := [], pos := none, saved := [] }
  | .older =>
      match e.recall e.olderPos with
      | none => e
      | some entry =>
          { e with
            line := entry
            pos := some e.olderPos
            saved := if e.pos = none then e.line else e.saved }
  | .newer =>
      match e.pos with
      | none => e
      | some 0 => { e with line := e.saved, pos := none }
      | some (i + 1) => { e with line := (e.recall i).getD [], pos := some i }
  | .enter => { line := [], history := remember e.history e.line, pos := none, saved := [] }
  | .delete => { e with line := e.line.dropLast }
  | .char c => if e.line.length < 255 then { e with line := e.line ++ [c] } else e

/-! ## Refinement -/

/-- `history_pos`. -/
def posValue : Option Nat → Int
  | none => -1
  | some i => i

/-- The variables of the shell hold what the editor does. -/
structure Refines (s : State) (e : Editor) : Prop where
  idx : s.bufferIdx = e.line.length
  line : StringAt s.keyBuffer 0 e.line
  short : e.line.length < maxLineLength
  keeps : Keeps s e.history
  pos : s.historyPos = posValue e.pos
  inside : ∀ i, e.pos = some i → i < s.historyCount
  saved : StringAt s.liveLineBackup 0 e.saved
  savedShort : e.saved.length < maxLineLength

section Lines

variable {s : State} {newLine : Bytes} {t : List UInt8}

/-- Erasing is done on the screen. -/
theorem eraseLine_eq (n : Nat) (s : State) :
    ∃ idx console, eraseLine n s = { s with bufferIdx := idx, console := console } := by
  induction n generalizing s with
  | zero => exact ⟨_, _, rfl⟩
  | succ n ih =>
      rw [eraseLine]
      split
      · obtain ⟨idx, console, herase⟩ := ih { s.eraseChar with bufferIdx := s.bufferIdx - 1 }
        exact ⟨idx, console, herase⟩
      · exact ⟨_, _, rfl⟩

theorem copyLine_eq {left k : Nat} (ht : StringAt newLine k t) (hleft : t.length ≤ left) :
    ∃ buffer console, copyLine newLine left k s =
        { s with keyBuffer := buffer, bufferIdx := (k + t.length : Nat), console := console } ∧
      StringAt buffer k t ∧ ∀ j < k, buffer j = s.keyBuffer j := by
  induction t generalizing left k s with
  | nil =>
      refine ⟨Function.update s.keyBuffer k 0, s.console, ?_, Function.update_self k 0 _,
        fun j hj => Function.update_of_ne (Nat.ne_of_lt hj) 0 _⟩
      cases left with
      | zero => rfl
      | succ left => exact if_neg (not_not.2 ht)
  | cons c t ih =>
      obtain ⟨left, rfl⟩ := Nat.exists_eq_add_one_of_ne_zero (Nat.ne_zero_of_lt hleft)
      obtain ⟨hc, hne, ht⟩ := ht
      obtain ⟨buffer, console, hcopy, hstr, hframe⟩ :=
        ih (s := { s with
          keyBuffer := Function.update s.keyBuffer k (newLine k)
          console := s.console.printChar (newLine k) }) ht (Nat.le_of_succ_le_succ hleft)
      refine ⟨buffer, console, ?_, ⟨?_, hne, hstr⟩, fun j hj => ?_⟩
      · rw [copyLine, if_pos (by rwa [hc]), hcopy, List.length_cons, Nat.add_right_comm,
          Nat.add_assoc]
      · rw [hframe k (Nat.lt_succ_self k)]
        exact (Function.update_self k _ s.keyBuffer).trans hc
      · rw [hframe j (Nat.lt_succ_of_lt hj)]
        exact Function.update_of_ne (Nat.ne_of_lt hj) _ s.keyBuffer

/-- **`shell_replace_line`** puts the new line in place of the old one. -/
theorem shellReplaceLine_eq (s : State) (ht : StringAt newLine 0 t)
    (hlen : t.length < maxLineLength) :
    ∃ buffer console, s.shellReplaceLine newLine =
        { s with keyBuffer := buffer, bufferIdx := t.length, console := console } ∧
      StringAt buffer 0 t := by
  obtain ⟨idx, console, herase⟩ := eraseLine_eq s.bufferIdx.toNat s
  obtain ⟨buffer, console', hcopy, hstr, -⟩ :=
    copyLine_eq (s := { s with bufferIdx := idx, console := console }) ht
      (Nat.le_sub_one_of_lt hlen)
  refine ⟨buffer, console', ?_, hstr⟩
  unfold State.shellReplaceLine
  rw [herase, hcopy, Nat.zero_add]

/-- **`history_load`** shows a kept line. -/
theorem historyLoad_eq {kept : List (List UInt8)} (h : Keeps s kept) {i : Nat}
    (hi : i < s.historyCount) :
    ∃ buffer console, s.historyLoad i =
        { s with
          keyBuffer := buffer, bufferIdx := (kept.getD i []).length, console := console } ∧
      StringAt buffer 0 (kept.getD i []) := by
  have hrow : i < maxHistory := lt_of_lt_of_le (h.count ▸ hi) (Nat.min_le_left _ _)
  unfold State.historyLoad
  rw [if_neg (by omega), Int.toNat_natCast]
  exact shellReplaceLine_eq s (h.row i hrow) (h.short_getD i)

end Lines

section Keys

variable {s : State} {e : Editor} {c : UInt8}

theorem refines_init (console : Print.Console) : Refines (State.init console) Editor.init where
  idx := rfl
  line := rfl
  short := by decide
  keeps := keeps_init console
  pos := rfl
  inside _ h := absurd h (by simp [Editor.init])
  saved := rfl
  savedShort := by decide

/-- The editor knows nothing of the screen. -/
theorem Refines.console (h : Refines s e) (console : Print.Console) :
    Refines { s with console := console } e :=
  { h with keeps := h.keeps.of_eq rfl rfl }

/-- Another line in the buffer. -/
theorem Refines.edit (h : Refines s e) {buffer : Bytes} {idx : Int} {line : List UInt8}
    (hidx : idx = line.length) (hline : StringAt buffer 0 line)
    (hshort : line.length < maxLineLength) (console : Print.Console) :
    Refines { s with keyBuffer := buffer, bufferIdx := idx, console := console }
      { e with line := line } where
  idx := hidx
  line := hline
  short := hshort
  keeps := h.keeps.of_eq rfl rfl
  pos := h.pos
  inside := h.inside
  saved := h.saved
  savedShort := h.savedShort

/-- An empty line, which is the live one. -/
theorem Keeps.reset (h : Keeps s e.history) :
    Refines s.reset { e with line := [], pos := none, saved := [] } where
  idx := rfl
  line := Function.update_self 0 0 s.keyBuffer
  short := show 0 < maxLineLength by decide
  keeps := h.of_eq rfl rfl
  pos := rfl
  inside _ h := absurd h (by simp)
  saved := Function.update_self 0 0 s.liveLineBackup
  savedShort := show 0 < maxLineLength by decide

theorem Refines.cancel (h : Refines s e) : Refines s.cancel (e.press .cancel) := by
  have hkeeps : Keeps { s with console := s.console.puts (ascii "^C\n") } e.history :=
    h.keeps.of_eq rfl rfl
  exact hkeeps.reset.console _

/-- The zero byte that is written behind the line is there already. -/
theorem Refines.terminated (h : Refines s e) :
    StringAt (Function.update s.keyBuffer s.bufferIdx.toNat 0) 0 e.line := by
  rw [h.idx, Int.toNat_natCast]
  have hend := h.line.terminator
  rw [Nat.zero_add] at hend
  rw [← hend, Function.update_eq_self]
  exact h.line

theorem Refines.depth_eq (h : Refines s e) : s.historyCount = e.depth := h.keeps.count

/-- `next` of the branch for the Up key. -/
theorem Refines.next_eq (h : Refines s e) :
    (if s.historyPos < 0 then 0 else s.historyPos + 1) = (e.olderPos : Int) := by
  unfold Editor.olderPos
  rw [h.pos]
  cases e.pos with
  | none => rfl
  | some i => exact if_neg (Int.not_lt.2 (Int.natCast_nonneg i))

/-- Showing a kept line. -/
theorem Refines.load (h : Refines s e) {i : Nat} (hi : i < s.historyCount) :
    Refines ({ s with historyPos := i }.historyLoad i)
      { e with line := e.history.getD i [], pos := some i } := by
  have hkeeps : Keeps { s with historyPos := i } e.history := h.keeps.of_eq rfl rfl
  obtain ⟨buffer, console, hload, hstr⟩ := historyLoad_eq hkeeps hi
  rw [hload]
  exact ⟨rfl, hstr, h.keeps.short_getD i, h.keeps.of_eq rfl rfl, rfl,
    fun j hj => Option.some.inj hj ▸ hi, h.saved, h.savedShort⟩

/-- Backing up the live line. -/
theorem Refines.backUp (h : Refines s e) :
    ∃ s', s.backUp = some s' ∧ s'.historyCount = s.historyCount ∧
      Refines s' { e with saved := e.line } := by
  have hline := h.terminated
  obtain ⟨backup, hcopy, hstr⟩ := strcpy_eq s.liveLineBackup hline h.short
  refine ⟨{ s with
    keyBuffer := Function.update s.keyBuffer s.bufferIdx.toNat 0, liveLineBackup := backup }, ?_,
    rfl, h.idx, hline, h.short, h.keeps.of_eq rfl rfl, h.pos, h.inside, hstr, h.short⟩
  unfold State.backUp
  dsimp only
  rw [hcopy]
  rfl

theorem press_older {entry : List UInt8} (h : e.recall e.olderPos = some entry) :
    e.press .older =
      { e with
        line := entry
        pos := some e.olderPos
        saved := if e.pos = none then e.line else e.saved } := by
  unfold Editor.press
  rw [h]

theorem press_older_end (h : e.recall e.olderPos = none) : e.press .older = e := by
  unfold Editor.press
  rw [h]

/-- **Up.** -/
theorem Refines.older (h : Refines s e) : ∃ s', s.up = some s' ∧ Refines s' (e.press .older) := by
  have hrecall := recall_eq e e.olderPos
  rw [← h.depth_eq] at hrecall
  unfold State.up
  dsimp only
  rw [h.next_eq]
  by_cases hlt : e.olderPos < s.historyCount
  · rw [if_pos hlt] at hrecall
    rw [if_neg (Nat.ne_of_gt (Nat.zero_lt_of_lt hlt)), if_pos (Int.ofNat_lt.2 hlt),
      press_older hrecall, h.pos]
    cases hpos : e.pos with
    | none =>
        -- from the live line
        obtain ⟨s', hback, hcount, h'⟩ := h.backUp
        rw [if_pos (show posValue none < 0 by decide), hback, if_pos rfl]
        exact ⟨_, rfl, h'.load (hcount.symm ▸ hlt)⟩
    | some i =>
        have hbrowsing : ¬ posValue (some i) < 0 := Int.not_lt.2 (Int.natCast_nonneg i)
        rw [if_neg hbrowsing, if_neg (by simp)]
        exact ⟨_, rfl, h.load hlt⟩
  · rw [if_neg hlt] at hrecall
    have hlt' : ¬ (e.olderPos : Int) < s.historyCount := mt Int.ofNat_lt.1 hlt
    rw [press_older_end hrecall, if_neg hlt', ite_self]
    exact ⟨s, rfl, h⟩

/-- **Down.** -/
theorem Refines.newer (h : Refines s e) : Refines s.down (e.press .newer) := by
  have hpos := h.pos
  unfold State.down Editor.press
  cases he : e.pos with
  | none =>
      rw [he] at hpos
      rw [hpos, if_neg (show ¬ 0 < posValue none by decide),
        if_neg (show ¬ posValue none = 0 by decide)]
      exact h
  | some i =>
      rw [he] at hpos
      have hinside := h.inside i he
      cases i with
      | zero =>
          -- back to the live line
          rw [hpos, if_neg (show ¬ 0 < posValue (some 0) by decide),
            if_pos (show posValue (some 0) = 0 by decide)]
          obtain ⟨buffer, console, hreplace, hstr⟩ :=
            shellReplaceLine_eq { s with historyPos := -1 } h.saved h.savedShort
          rw [hreplace]
          exact ⟨rfl, hstr, h.savedShort, h.keeps.of_eq rfl rfl, rfl,
            fun j hj => absurd hj (by simp), h.saved, h.savedShort⟩
      | succ i =>
          have hprev : s.historyPos - 1 = (i : Int) := by
            rw [hpos]
            show ((i + 1 : Nat) : Int) - 1 = i
            omega
          have hi : i < s.historyCount := Nat.lt_of_succ_lt hinside
          have hup : 0 < s.historyPos := by
            rw [hpos]
            exact Int.natCast_pos.2 (Nat.succ_pos i)
          rw [if_pos hup, hprev]
          dsimp only
          rw [recall_eq, ← h.depth_eq, if_pos hi, Option.getD_some]
          exact h.load hi

/-- **Backspace.** -/
theorem Refines.delete (h : Refines s e) : Refines s.backspace (e.press .delete) := by
  have hidx := h.idx
  unfold State.backspace
  by_cases hpos : 0 < s.bufferIdx
  · have hlen : 0 < e.line.length := Int.natCast_pos.1 (hidx ▸ hpos)
    have hlast : (s.bufferIdx - 1).toNat = e.line.length - 1 := by omega
    have htake : StringAt (Function.update s.keyBuffer (s.bufferIdx - 1).toNat 0) 0
        (e.line.take (e.line.length - 1)) := by
      refine h.line.take (Nat.sub_le _ 1) (fun i _ hi => Function.update_of_ne (by omega) _ _) ?_
      rw [Nat.zero_add, hlast]
      exact Function.update_self _ _ _
    rw [← List.dropLast_eq_take] at htake
    have hsize : e.line.dropLast.length = e.line.length - 1 := List.length_dropLast
    rw [if_pos hpos]
    have hprev : s.bufferIdx - 1 = (e.line.dropLast.length : Int) := by omega
    have hshort : e.line.dropLast.length < maxLineLength :=
      lt_of_le_of_lt (hsize ▸ Nat.sub_le _ 1) h.short
    exact h.edit hprev htake hshort _
  · -- nothing to delete
    have hnil : e.line = [] := List.length_eq_zero_iff.1 (by omega)
    rw [if_neg hpos]
    have hsame : e.press .delete = e := by
      show { e with line := e.line.dropLast } = e
      rw [hnil, List.dropLast_nil, ← hnil]
    rwa [hsame]

/-- **The other keys.** -/
theorem Refines.char (h : Refines s e) (hc : c ≠ 0) : Refines (s.append c) (e.press (.char c)) := by
  have hidx := h.idx
  have hroom : s.bufferIdx < maxLineLength - 1 ↔ e.line.length < 255 := by
    rw [hidx]
    exact Int.ofNat_lt
  have hpress : e.press (.char c) =
      if e.line.length < 255 then { e with line := e.line ++ [c] } else e := rfl
  unfold State.append
  rw [hpress]
  by_cases hlt : e.line.length < 255
  · rw [if_pos (hroom.2 hlt), if_pos hlt]
    have hlen : s.bufferIdx.toNat = e.line.length := by omega
    have hnext : (s.bufferIdx + 1).toNat = e.line.length + 1 := by omega
    have hsnoc : StringAt (Function.update (Function.update s.keyBuffer s.bufferIdx.toNat c)
        (s.bufferIdx + 1).toNat 0) 0 (e.line ++ [c]) := by
      rw [hlen, hnext]
      refine h.line.snoc hc (fun i _ hi => ?_) ?_ ?_
      · rw [Function.update_of_ne (by omega), Function.update_of_ne (by omega)]
      · rw [Nat.zero_add, Function.update_of_ne (by omega), Function.update_self]
      · rw [Nat.zero_add, Function.update_self]
    have hsize : (e.line ++ [c]).length = e.line.length + 1 := List.length_append
    exact h.edit (by omega) hsnoc (by rw [hsize]; exact Nat.succ_lt_succ hlt) _
  · rw [if_neg (mt hroom.1 hlt), if_neg hlt]
    exact h

/-- The calls of the branch for the Enter key, one after the other. -/
theorem enter_eq (env : Env) {s₂ : State} {cmdCopy : Bytes} {console : Print.Console}
    (hsave : State.historySave
      { s with
        console := s.console.printChar 10
        keyBuffer := Function.update s.keyBuffer s.bufferIdx.toNat 0 }
      (some (Function.update s.keyBuffer s.bufferIdx.toNat 0)) = some s₂)
    (hcopy : strcpy maxLineLength env.cmdCopy s₂.keyBuffer = some cmdCopy)
    (hexec : executeCommand env maxLineLength (some cmdCopy) s₂.console = some console) :
    s.enter env = some { s₂.reset with console := console }.prompt := by
  unfold State.enter
  dsimp only
  rw [hsave, Option.bind_some, hcopy, Option.bind_some]
  show Option.map _ (executeCommand env maxLineLength (some cmdCopy) s₂.console) = _
  rw [hexec]
  rfl

/-- **Enter.** -/
theorem Refines.enter (env : Env) (h : Refines s e) :
    ∃ s', s.enter env = some s' ∧ Refines s' (e.press .enter) := by
  have hline := h.terminated
  have hkeeps : Keeps
      { s with
        console := s.console.printChar 10
        keyBuffer := Function.update s.keyBuffer s.bufferIdx.toNat 0 } e.history :=
    h.keeps.of_eq rfl rfl
  obtain ⟨history, count, hsave, hkeeps'⟩ := hkeeps.historySave hline h.short
  obtain ⟨cmdCopy, hcopy, hcmd⟩ := strcpy_eq env.cmdCopy hline h.short
  obtain ⟨console, hexec⟩ := executeCommand_returns env hcmd h.short (s.console.printChar 10)
  have hreset := hkeeps'.reset (e := { e with history := remember e.history e.line })
  exact ⟨_, enter_eq env hsave hcopy hexec, hreset.console _⟩

/-- **A key.** -/
theorem Refines.shellKeyboard (env : Env) (h : Refines s e) (c : UInt8) :
    ∃ s', s.shellKeyboard env c = some s' ∧ Refines s' (e.press (.ofChar c)) := by
  unfold State.shellKeyboard Key.ofChar
  by_cases hidle : c = 0
  · rw [if_pos hidle, if_pos hidle]
    exact ⟨s, rfl, h⟩
  rw [if_neg hidle, if_neg hidle]
  by_cases hcancel : c = 3
  · rw [if_pos hcancel, if_pos hcancel]
    exact ⟨_, rfl, h.cancel⟩
  rw [if_neg hcancel, if_neg hcancel]
  by_cases hup : c = 0x11
  · rw [if_pos hup, if_pos hup]
    exact h.older
  rw [if_neg hup, if_neg hup]
  by_cases hdown : c = 0x12
  · rw [if_pos hdown, if_pos hdown]
    exact ⟨_, rfl, h.newer⟩
  rw [if_neg hdown, if_neg hdown]
  by_cases henter : c = 10
  · rw [if_pos henter, if_pos henter]
    exact h.enter env
  rw [if_neg henter, if_neg henter]
  by_cases hback : c = 8
  · rw [if_pos hback, if_pos hback]
    exact ⟨_, rfl, h.delete⟩
  rw [if_neg hback, if_neg hback]
  exact ⟨_, rfl, h.char hidle⟩

end Keys

/-! ## Runs -/

/-- The editor after a sequence of returned characters. -/
def Editor.run (e : Editor) (keys : List UInt8) : Editor :=
  keys.foldl (fun e c => e.press (.ofChar c)) e

theorem Refines.shellLoop (env : Env) {s : State} {e : Editor} (h : Refines s e)
    (keys : List UInt8) : ∃ s', s.shellLoop env keys = some s' ∧ Refines s' (e.run keys) := by
  induction keys generalizing s e with
  | nil => exact ⟨s, rfl, h⟩
  | cons c rest ih =>
      obtain ⟨s', hkey, h'⟩ := h.shellKeyboard env c
      obtain ⟨s'', hloop, h''⟩ := ih (h'.console (s'.console.setPrintColor 0x0F))
      refine ⟨s'', ?_, h''⟩
      rw [State.shellLoop, hkey]
      exact hloop

/-! ### Back into the history, and forth again -/

section Browsing

variable {e : Editor}

/-- `k` steps back from the live line. -/
def Editor.back (e : Editor) : Nat → Editor
  | 0 => { e with pos := none, saved := e.line }
  | k + 1 => { e with line := e.history.getD k [], pos := some k, saved := e.line }

/-- A key that changes nothing. -/
theorem run_replicate_of_eq {c : UInt8} (h : e.press (.ofChar c) = e) (m : Nat) :
    e.run (List.replicate m c) = e := by
  induction m with
  | zero => rfl
  | succ m ih =>
      show (e.press (.ofChar c)).run (List.replicate m c) = e
      rw [h, ih]

theorem run_replicate_succ (e : Editor) (c : UInt8) (m : Nat) :
    e.run (List.replicate (m + 1) c) = (e.run (List.replicate m c)).press (.ofChar c) := by
  unfold Editor.run
  rw [List.replicate_succ', List.foldl_append]
  rfl

/-- The first step back. -/
theorem press_older_live (hpos : e.pos = none) (h : 0 < e.depth) : e.press .older = e.back 1 := by
  have hnext : e.olderPos = 0 := by
    unfold Editor.olderPos
    rw [hpos]
  have hrecall := recall_eq e e.olderPos
  rw [hnext, if_pos h, ← hnext] at hrecall
  rw [press_older hrecall, hnext, if_pos hpos]
  rfl

/-- A further step back. -/
theorem press_older_back (k : Nat) :
    (e.back (k + 1)).press .older = e.back (min (k + 2) (max (k + 1) e.depth)) := by
  have hrecall := recall_eq (e.back (k + 1)) (k + 1)
  by_cases hlt : k + 1 < e.depth
  · rw [if_pos (show k + 1 < (e.back (k + 1)).depth from hlt)] at hrecall
    have hmin : min (k + 2) (max (k + 1) e.depth) = k + 2 := by omega
    rw [press_older hrecall, hmin]
    rfl
  · rw [if_neg (show ¬ k + 1 < (e.back (k + 1)).depth from hlt)] at hrecall
    have hmin : min (k + 2) (max (k + 1) e.depth) = k + 1 := by omega
    rw [press_older_end hrecall, hmin]

/-- A step forth. -/
theorem press_newer_back {k : Nat} (hk : k ≤ e.depth) :
    (e.back k).press .newer = e.back (k - 1) := by
  match k, hk with
  | 0, _ => rfl
  | 1, _ => rfl
  | k + 2, hk =>
      have hrecall := recall_eq (e.back (k + 2)) k
      rw [if_pos (show k < (e.back (k + 2)).depth from Nat.lt_of_succ_lt hk)] at hrecall
      show { e.back (k + 2) with line := ((e.back (k + 2)).recall k).getD [], pos := some k } = _
      rw [hrecall]
      rfl

theorem run_older (hpos : e.pos = none) (h : 0 < e.depth) (m : Nat) :
    e.run (List.replicate (m + 1) 0x11) = e.back (min (m + 1) e.depth) := by
  induction m with
  | zero =>
      have hmin : min 1 e.depth = 1 := by omega
      rw [hmin]
      exact press_older_live hpos h
  | succ m ih =>
      obtain ⟨k, hk⟩ : ∃ k, min (m + 1) e.depth = k + 1 := ⟨min (m + 1) e.depth - 1, by omega⟩
      rw [run_replicate_succ, ih, hk]
      refine (press_older_back k).trans (congrArg e.back ?_)
      omega

theorem run_newer {k : Nat} (hk : k ≤ e.depth) (m : Nat) :
    (e.back k).run (List.replicate m 0x12) = e.back (k - m) := by
  induction m with
  | zero => rfl
  | succ m ih =>
      rw [run_replicate_succ, ih]
      exact press_newer_back (Nat.sub_le_of_le_add (by omega))

/-- **Back and forth.**  Going back from the live line and forth again shows the live line. -/
theorem run_older_newer (hpos : e.pos = none) (m : Nat) :
    (e.run (List.replicate m 0x11 ++ List.replicate m 0x12)).line = e.line ∧
      (e.run (List.replicate m 0x11 ++ List.replicate m 0x12)).pos = none := by
  have hsplit : e.run (List.replicate m 0x11 ++ List.replicate m 0x12) =
      (e.run (List.replicate m 0x11)).run (List.replicate m 0x12) := List.foldl_append
  rw [hsplit]
  rcases Nat.eq_zero_or_pos e.depth with hzero | hdepth
  · -- there is no line to recall
    have holder : e.press .older = e := press_older_end (by rw [recall_eq, if_neg (by omega)])
    have hnewer : e.press .newer = e := by
      unfold Editor.press
      rw [hpos]
    have hup : e.run (List.replicate m 0x11) = e := run_replicate_of_eq holder m
    have hdown : e.run (List.replicate m 0x12) = e := run_replicate_of_eq hnewer m
    rw [hup, hdown]
    exact ⟨rfl, hpos⟩
  · cases m with
    | zero => exact ⟨rfl, hpos⟩
    | succ m =>
        have hback : min (m + 1) e.depth - (m + 1) = 0 := by omega
        rw [run_older hpos hdepth, run_newer (Nat.min_le_right _ _), hback]
        exact ⟨rfl, rfl⟩

end Browsing

/-! ### The shell -/

/-- The characters of the line in `key_buffer`. -/
def State.typed (s : State) : List UInt8 := (List.range s.bufferIdx.toNat).map s.keyBuffer

theorem Refines.typed_eq {s : State} {e : Editor} (h : Refines s e) : s.typed = e.line := by
  unfold State.typed
  rw [h.idx, Int.toNat_natCast]
  refine List.ext_getElem (by simp) fun i hi hlen => ?_
  rw [List.getElem_map, List.getElem_range, ← h.line.byte hlen, Nat.zero_add]

/-- `-1 ≤ history_pos < history_count`. -/
theorem Refines.pos_bounds {s : State} {e : Editor} (h : Refines s e) :
    -1 ≤ s.historyPos ∧ s.historyPos < s.historyCount := by
  have hinside := h.inside
  rw [h.pos]
  cases hpos : e.pos with
  | none =>
      refine ⟨le_refl _, ?_⟩
      show (-1 : Int) < s.historyCount
      omega
  | some i =>
      have hi := hinside i hpos
      constructor
      · show (-1 : Int) ≤ i
        omega
      · exact Int.ofNat_lt.2 hi

theorem Refines.live_iff {s : State} {e : Editor} (h : Refines s e) :
    s.historyPos = -1 ↔ e.pos = none := by
  rw [h.pos]
  cases e.pos with
  | none => exact iff_of_true rfl rfl
  | some i => exact iff_of_false (show ¬ (i : Int) = -1 by omega) (by simp)

/-- **The line editor.**  Whatever is typed, the shell holds what the editor does, the line and
the position keep their bounds, and going back from the live line and forth again restores
it. -/
theorem shell_refines_editor (env : Env) (console : Print.Console) (keys : List UInt8) :
    ∃ s, shellRun env console keys = some s ∧ Refines s (Editor.init.run keys) ∧
      0 ≤ s.bufferIdx ∧ s.bufferIdx ≤ 255 ∧ s.typed = (Editor.init.run keys).line ∧
      0 ∉ s.typed ∧ -1 ≤ s.historyPos ∧ s.historyPos < s.historyCount ∧
      (s.historyCount = 0 → s.historyPos = -1) ∧
      ∀ m, s.historyPos = -1 →
        ∃ s', s.shellLoop env (List.replicate m 0x11 ++ List.replicate m 0x12) = some s' ∧
          s'.typed = s.typed ∧ s'.bufferIdx = s.bufferIdx ∧ s'.historyPos = -1 := by
  have hinit : Refines (State.init console).prompt Editor.init := (refines_init console).console _
  obtain ⟨s, hrun, h⟩ := hinit.shellLoop env keys
  obtain ⟨hlow, hhigh⟩ := h.pos_bounds
  have hidx := h.idx
  have hshort : (Editor.init.run keys).line.length < 256 := h.short
  refine ⟨s, hrun, h, by omega, by omega, h.typed_eq, ?_, hlow, hhigh, by omega, fun m hlive => ?_⟩
  · rw [h.typed_eq]
    exact fun hmem => h.line.ne_zero hmem rfl
  · obtain ⟨s', hloop, h'⟩ :=
      h.shellLoop env (List.replicate m 0x11 ++ List.replicate m 0x12)
    obtain ⟨hline, hpos⟩ := run_older_newer (h.live_iff.1 hlive) m
    refine ⟨s', hloop, ?_, ?_, h'.live_iff.2 hpos⟩
    · rw [h'.typed_eq, h.typed_eq, hline]
    · rw [h'.idx, h.idx, hline]

end BenmoshOS.Shell
