import BenmoshOS.Print.View

/-!
# The console: array indices

The functions of `print.c` once more, access by access.  Here an access of `line_buffer`,
`line_lengths` or the video memory first compares its index with the size of the array, and
an index outside ends the run.

* `Checked` — the functions with checked accesses.
* `InBounds` — what keeps the indices inside: there is a row, the column is one of the row,
  and so are the lengths that `'\b'` goes back to.
* `console_indices` — from the boot on, the functions with and without checks do the same.
-/

namespace BenmoshOS.Print

open Exec (forUpTo forUpTo_eq)

/-! ## Calls -/

/-- `enable_dynamic_history`.  The arguments are the contents of the two buffers, where
`kmalloc` has one. -/
def Console.enableDynamicHistory (c : Console) (totalRows : Nat)
    (newBuffer : Option (Nat → Nat → Nat)) (newLengths : Option (Nat → Nat)) : Console :=
  match newBuffer, newLengths with
  | some buffer, some lengths => Console.screenClear
      { c with lineBuffer := buffer, lineLengths := lengths, maxHistoryRows := totalRows }
  | _, _ => c

/-- The calls that use the arrays. -/
inductive Op where
  | call (call : Call)
  | setPrintColor (color : Nat)
  | enableDynamicHistory (totalRows : Nat) (newBuffer : Option (Nat → Nat → Nat))
      (newLengths : Option (Nat → Nat))

/-- The console after a call. -/
def Console.op (c : Console) : Op → Console
  | .call call => c.call call
  | .setPrintColor color => c.setPrintColor color
  | .enableDynamicHistory totalRows newBuffer newLengths =>
      c.enableDynamicHistory totalRows newBuffer newLengths

/-- The size of a new ring is that of a buffer whose bytes an `int` can count. -/
def Op.Fits : Op → Prop
  | .enableDynamicHistory totalRows _ _ => 1 ≤ totalRows ∧ 160 * totalRows < 2 ^ 31
  | _ => True

/-! ## The functions with checked accesses -/

/-- An index outside its array. -/
def outOfBounds (i : Nat) : Panic := ⟨"index %d out of bounds", [i]⟩

namespace Checked

/-- `line_buffer[row][col]` -/
def loadCell (c : Console) (row col : Nat) : Exec Nat :=
  if row * maxCol + col < c.maxHistoryRows * maxCol then .ret (c.lineBuffer row col)
  else .panic (outOfBounds (row * maxCol + col))

/-- `line_buffer[row][col] = cell` -/
def storeCell (c : Console) (row col cell : Nat) : Exec Console :=
  if row * maxCol + col < c.maxHistoryRows * maxCol then .ret (c.setCell row col cell)
  else .panic (outOfBounds (row * maxCol + col))

/-- `line_lengths[row]` -/
def loadLength (c : Console) (row : Nat) : Exec Nat :=
  if row < c.maxHistoryRows then .ret (c.lineLengths row) else .panic (outOfBounds row)

/-- `line_lengths[row] = length` -/
def storeLength (c : Console) (row length : Nat) : Exec Console :=
  if row < c.maxHistoryRows then .ret (c.setLength row length) else .panic (outOfBounds row)

/-- `video_memory[i] = cell` -/
def storeVideo (c : Console) (i cell : Nat) : Exec Console :=
  if i < maxRow * maxCol then .ret { c with videoMemory := Function.update c.videoMemory i cell }
  else .panic (outOfBounds i)

/-- `memsetw(line_buffer[row], blank_cell, MAX_COL)` -/
def wipeRow (c : Console) (row blankCell : Nat) : Exec Console :=
  forUpTo (fun col c => storeCell c row col blankCell) maxCol c

/-- A row of the screen in `update_screen`. -/
def showRow (row : Nat) (c : Console) : Exec Console :=
  let absRow := wrap32 (c.viewStartRow + row)
  if c.oldestRow ≤ absRow ∧ absRow ≤ c.absoluteWriteRow then
    forUpTo (fun col c => do
      let cell ← loadCell c (absRow % c.maxHistoryRows) col
      storeVideo c (row * maxCol + col) cell) maxCol c
  else forUpTo (fun col c => storeVideo c (row * maxCol + col) c.blankCell) maxCol c

/-- `update_screen` -/
def updateScreen (c : Console) : Exec Console := do
  let c ← forUpTo showRow maxRow c
  pure { c with cursor := c.cursorPosition }

/-- `screen_clear`: the rows of the ring are cleared as one array of `total_cells` cells. -/
def screenClear (c : Console) : Exec Console := do
  let blankCell := c.blankCell
  let totalCells := wrap32 (c.maxHistoryRows * maxCol)
  let c ← forUpTo (fun i c => storeCell c (i / maxCol) (i % maxCol) blankCell) totalCells c
  let c := { c with absoluteWriteRow := 0, writeCol := 0, viewStartRow := 0 }
  let c ← forUpTo (fun i c => storeLength c i 0) c.maxHistoryRows c
  updateScreen c

/-- `set_print_color` -/
def setPrintColor (c : Console) (color : Nat) : Exec Console := do
  let c := { c with currentColor := color % 256 }
  let row := c.absoluteWriteRow % c.maxHistoryRows
  let current ← loadCell c row c.writeCol
  let c ← storeCell c row c.writeCol (c.cell (current % 256))
  let screenY := wrap32 (c.absoluteWriteRow + 2 ^ 32 - c.viewStartRow)
  if screenY < maxRow then do
    let cell ← loadCell c row c.writeCol
    storeVideo c (screenY * maxCol + c.writeCol) cell
  else pure c

/-- The branch of `print_char` for `'\n'`. -/
def newline (c : Console) : Exec Console := do
  let blankCell := c.blankCell
  let c ← storeLength c (c.absoluteWriteRow % c.maxHistoryRows) c.writeCol
  let c := { c with writeCol := 0, absoluteWriteRow := wrap32 (c.absoluteWriteRow + 1) }
  wipeRow c (c.absoluteWriteRow % c.maxHistoryRows) blankCell

/-- The branch of `print_char` for `'\b'`. -/
def backspace (c : Console) : Exec Console :=
  let blankCell := c.blankCell
  if 0 < c.writeCol then
    let c := { c with writeCol := c.writeCol - 1 }
    storeCell c (c.absoluteWriteRow % c.maxHistoryRows) c.writeCol blankCell
  else if 0 < c.absoluteWriteRow then do
    let c := { c with absoluteWriteRow := c.absoluteWriteRow - 1 }
    let row := c.absoluteWriteRow % c.maxHistoryRows
    let length ← loadLength c row
    let c := { c with writeCol := if maxCol ≤ length then maxCol - 1 else length }
    storeCell c row c.writeCol blankCell
  else pure c

/-- The branch of `print_char` for the other characters. -/
def putCell (c : Console) (character : UInt8) : Exec Console := do
  let blankCell := c.blankCell
  let row := c.absoluteWriteRow % c.maxHistoryRows
  let c ← storeCell c row c.writeCol (c.cell character.toNat)
  let c := { c with writeCol := c.writeCol + 1 }
  if maxCol ≤ c.writeCol then do
    let c ← storeLength c row maxCol
    let c := { c with writeCol := 0, absoluteWriteRow := wrap32 (c.absoluteWriteRow + 1) }
    wipeRow c (c.absoluteWriteRow % c.maxHistoryRows) blankCell
  else pure c

/-- The three branches of `print_char` behind the parser. -/
def edit (c : Console) (character : UInt8) : Exec Console :=
  if character = 10 then newline c
  else if character = 8 then backspace c
  else putCell c character

/-- `print_char` behind the parser. -/
def write (c : Console) (character : UInt8) : Exec Console := do
  let c ← edit c character
  updateScreen c.follow

/-- `print_char` -/
def printChar (c : Console) (character : UInt8) : Exec Console :=
  match c.ansiState with
  | .idle =>
      if character = esc then pure { c with ansiState := .escape } else write c character
  | .escape =>
      if character = 91 then pure { c with ansiState := .code, ansiCode := 0 }
      else write { c with ansiState := .idle } character
  | .code =>
      if 48 ≤ character ∧ character ≤ 57 then
        pure { c with ansiCode := wrap32 (c.ansiCode * 10 + (character.toNat - 48)) }
      else if character = 109 then pure { c.applyAnsiColor c.ansiCode with ansiState := .idle }
      else write { c with ansiState := .idle } character

/-- `scroll_history_up` -/
def scrollHistoryUp (c : Console) (lines : Nat) : Exec Console :=
  let c := { c with viewStartRow := if lines ≤ c.viewStartRow then c.viewStartRow - lines else 0 }
  updateScreen { c with
    viewStartRow := if c.viewStartRow < c.oldestRow then c.oldestRow else c.viewStartRow }

/-- `scroll_history_down` -/
def scrollHistoryDown (c : Console) (lines : Nat) : Exec Console :=
  let maxViewStart :=
    if maxRow - 1 ≤ c.absoluteWriteRow then c.absoluteWriteRow - (maxRow - 1) else 0
  let c := { c with viewStartRow := wrap32 (c.viewStartRow + lines) }
  updateScreen { c with
    viewStartRow := if maxViewStart < c.viewStartRow then maxViewStart else c.viewStartRow }

/-- `enable_dynamic_history` -/
def enableDynamicHistory (c : Console) (totalRows : Nat)
    (newBuffer : Option (Nat → Nat → Nat)) (newLengths : Option (Nat → Nat)) : Exec Console :=
  match newBuffer, newLengths with
  | some buffer, some lengths =>
      screenClear
        { c with lineBuffer := buffer, lineLengths := lengths, maxHistoryRows := totalRows }
  | _, _ => pure c

def op (c : Console) : Op → Exec Console
  | .call (.print character) => printChar c character
  | .call (.up lines) => scrollHistoryUp c lines
  | .call (.down lines) => scrollHistoryDown c lines
  | .call .clear => screenClear c
  | .setPrintColor color => setPrintColor c color
  | .enableDynamicHistory totalRows newBuffer newLengths =>
      enableDynamicHistory c totalRows newBuffer newLengths

/-- A row of calls. -/
def run (c : Console) : List Op → Exec Console
  | [] => pure c
  | o :: ops => do
      let c ← op c o
      run c ops

end Checked

/-! ## The indices -/

/-- What keeps the indices inside the arrays. -/
structure InBounds (c : Console) : Prop where
  rows_pos : 0 < c.maxHistoryRows
  rows_lt : 160 * c.maxHistoryRows < 2 ^ 31
  col_lt : c.writeCol < maxCol
  lengths_le : ∀ r, r < c.maxHistoryRows → c.lineLengths r ≤ maxCol

theorem inBounds_bootConsole : InBounds bootConsole :=
  ⟨by decide, by decide, by decide, fun _ _ => Nat.zero_le _⟩

theorem InBounds.congr {c c' : Console} (h : InBounds c)
    (hrows : c'.maxHistoryRows = c.maxHistoryRows) (hcol : c'.writeCol < maxCol)
    (hlengths : c'.lineLengths = c.lineLengths) : InBounds c' := by
  refine ⟨?_, ?_, hcol, ?_⟩
  · rw [hrows]
    exact h.rows_pos
  · rw [hrows]
    exact h.rows_lt
  · rw [hrows, hlengths]
    exact h.lengths_le

/-- A row number is an index of the ring modulo its size. -/
theorem InBounds.slot_lt {c : Console} (h : InBounds c) (row : Nat) :
    row % c.maxHistoryRows < c.maxHistoryRows := Nat.mod_lt _ h.rows_pos

theorem cell_index_lt {row col rows : Nat} (hrow : row < rows) (hcol : col < maxCol) :
    row * maxCol + col < rows * maxCol := by
  have hmul : (row + 1) * maxCol ≤ rows * maxCol := Nat.mul_le_mul_right _ hrow
  rw [Nat.succ_mul] at hmul
  omega

namespace Checked

section Accesses

variable {c : Console} {row col cell : Nat}

theorem loadCell_eq (hrow : row < c.maxHistoryRows) (hcol : col < maxCol) :
    loadCell c row col = .ret (c.lineBuffer row col) := if_pos (cell_index_lt hrow hcol)

theorem storeCell_eq (hrow : row < c.maxHistoryRows) (hcol : col < maxCol) :
    storeCell c row col cell = .ret (c.setCell row col cell) := if_pos (cell_index_lt hrow hcol)

theorem loadLength_eq (hrow : row < c.maxHistoryRows) :
    loadLength c row = .ret (c.lineLengths row) := if_pos hrow

theorem storeLength_eq {length : Nat} (hrow : row < c.maxHistoryRows) :
    storeLength c row length = .ret (c.setLength row length) := if_pos hrow

theorem storeVideo_eq (hrow : row < maxRow) (hcol : col < maxCol) :
    storeVideo c (row * maxCol + col) cell =
      .ret { c with videoMemory := Function.update c.videoMemory (row * maxCol + col) cell } :=
  if_pos (cell_index_lt hrow hcol)

end Accesses

/-! ### The loops -/

/-- The console after the first `n` cells of `memsetw` on a row. -/
def wipedTo (c : Console) (row blankCell n : Nat) : Console :=
  { c with lineBuffer := fun r col =>
      if r = row ∧ col < n then blankCell else c.lineBuffer r col }

theorem wipeRow_eq {c : Console} {row : Nat} (blankCell : Nat) (hrow : row < c.maxHistoryRows) :
    wipeRow c row blankCell = .ret (c.wipeRow row blankCell) := by
  have hstart : wipedTo c row blankCell 0 = c := by simp [wipedTo]
  have hround : ∀ col, col < maxCol →
      storeCell (wipedTo c row blankCell col) row col blankCell =
        .ret (wipedTo c row blankCell (col + 1)) := by
    intro col hcol
    rw [storeCell_eq (show row < (wipedTo c row blankCell col).maxHistoryRows from hrow) hcol]
    simp only [wipedTo, Console.setCell, Exec.ret.injEq, Console.mk.injEq, true_and, and_true]
    funext r k
    by_cases hr : r = row
    · by_cases hk : k = col
      · simp [hr, hk]
      · have hlt : k < col + 1 ↔ k < col := by omega
        simp [hr, hk, hlt]
    · simp [hr]
  have hloop : forUpTo (fun col c => storeCell c row col blankCell) maxCol
      (wipedTo c row blankCell 0) = .ret (wipedTo c row blankCell maxCol) := forUpTo_eq _ hround
  rwa [hstart] at hloop

/-- The console after the first `n` cells of the screen have been shown. -/
def shownTo (c : Console) (n : Nat) : Console :=
  { c with videoMemory := fun i =>
      if i < n then c.screenCell (i / maxCol) (i % maxCol) else c.videoMemory i }

theorem shownTo_succ (c : Console) {row col : Nat} (hcol : col < maxCol) :
    { shownTo c (row * maxCol + col) with
      videoMemory := Function.update (shownTo c (row * maxCol + col)).videoMemory
        (row * maxCol + col) (c.screenCell row col) } = shownTo c (row * maxCol + (col + 1)) := by
  have hdiv : (row * maxCol + col) / maxCol = row := by
    unfold maxCol at *
    omega
  have hmod : (row * maxCol + col) % maxCol = col := by
    unfold maxCol at *
    omega
  simp only [shownTo, Console.mk.injEq, true_and, and_true]
  funext i
  by_cases hi : i = row * maxCol + col
  · subst hi
    rw [Function.update_self, if_pos (by omega), hdiv, hmod]
  · rw [Function.update_of_ne hi]
    exact if_congr (by omega) rfl rfl

/-- A row of the screen. -/
theorem showRow_eq {c : Console} (hrows : 0 < c.maxHistoryRows) {row : Nat} (hrow : row < maxRow) :
    showRow row (shownTo c (row * maxCol)) = .ret (shownTo c ((row + 1) * maxCol)) := by
  have hnext : (row + 1) * maxCol = row * maxCol + maxCol := Nat.succ_mul _ _
  rw [hnext]
  by_cases hheld : c.oldestRow ≤ wrap32 (c.viewStartRow + row) ∧
      wrap32 (c.viewStartRow + row) ≤ c.absoluteWriteRow
  · have hcell : ∀ col, c.screenCell row col =
        c.lineBuffer (wrap32 (c.viewStartRow + row) % c.maxHistoryRows) col :=
      fun col => if_pos hheld
    refine (if_pos hheld).trans ?_
    refine forUpTo_eq (fun col => shownTo c (row * maxCol + col)) fun col hcol => ?_
    have hload : loadCell (shownTo c (row * maxCol + col))
        (wrap32 (c.viewStartRow + row) % c.maxHistoryRows) col = .ret (c.screenCell row col) := by
      rw [hcell]
      exact loadCell_eq (Nat.mod_lt _ hrows) hcol
    show (loadCell (shownTo c (row * maxCol + col))
      (wrap32 (c.viewStartRow + row) % c.maxHistoryRows) col >>= fun cell =>
        storeVideo (shownTo c (row * maxCol + col)) (row * maxCol + col) cell) = _
    rw [hload, Exec.ret_bind, storeVideo_eq hrow hcol, shownTo_succ c hcol]
  · have hcell : ∀ col, c.screenCell row col = c.blankCell := fun col => if_neg hheld
    refine (if_neg hheld).trans ?_
    refine forUpTo_eq (fun col => shownTo c (row * maxCol + col)) fun col hcol => ?_
    show storeVideo (shownTo c (row * maxCol + col)) (row * maxCol + col) c.blankCell = _
    rw [storeVideo_eq hrow hcol, ← hcell col, shownTo_succ c hcol]

theorem updateScreen_eq {c : Console} (hrows : 0 < c.maxHistoryRows) :
    updateScreen c = .ret c.updateScreen := by
  have hstart : shownTo c (0 * maxCol) = c := by simp [shownTo]
  have hloop : forUpTo showRow maxRow (shownTo c (0 * maxCol)) =
      .ret (shownTo c (maxRow * maxCol)) :=
    forUpTo_eq (fun row => shownTo c (row * maxCol)) fun row hrow => showRow_eq hrows hrow
  rw [hstart] at hloop
  unfold updateScreen
  rw [hloop]
  rfl

/-- The console after the first `n` cells of the ring have been cleared. -/
def clearedTo (c : Console) (n : Nat) : Console :=
  { c with lineBuffer := fun r col =>
      if r * maxCol + col < n ∧ col < maxCol then c.blankCell else c.lineBuffer r col }

theorem clearCells_eq {c : Console} :
    forUpTo (fun i c' => storeCell c' (i / maxCol) (i % maxCol) c.blankCell)
      (c.maxHistoryRows * maxCol) c = .ret (clearedTo c (c.maxHistoryRows * maxCol)) := by
  have hstart : clearedTo c 0 = c := by simp [clearedTo]
  have hround : ∀ i, i < c.maxHistoryRows * maxCol →
      storeCell (clearedTo c i) (i / maxCol) (i % maxCol) c.blankCell =
        .ret (clearedTo c (i + 1)) := by
    intro i hi
    have hrow : i / maxCol < (clearedTo c i).maxHistoryRows :=
      Nat.div_lt_of_lt_mul (by rwa [Nat.mul_comm])
    rw [storeCell_eq hrow (Nat.mod_lt _ (by decide))]
    simp only [clearedTo, Console.setCell, Exec.ret.injEq, Console.mk.injEq, true_and, and_true]
    funext r k
    -- cell `i` is the one cell that round `i` adds
    have hcell : r = i / maxCol ∧ k = i % maxCol ↔ r * maxCol + k = i ∧ k < maxCol := by
      unfold maxCol
      omega
    rw [if_congr hcell rfl rfl]
    by_cases hk : r * maxCol + k = i ∧ k < maxCol
    · rw [if_pos hk, if_pos ⟨by omega, hk.2⟩]
    · rw [if_neg hk]
      exact if_congr (by omega) rfl rfl
  have hloop : forUpTo (fun i c' => storeCell c' (i / maxCol) (i % maxCol) c.blankCell)
      (c.maxHistoryRows * maxCol) (clearedTo c 0) =
        .ret (clearedTo c (c.maxHistoryRows * maxCol)) := forUpTo_eq _ hround
  rwa [hstart] at hloop

/-- The console after the lengths of the first `n` rows have been cleared. -/
def emptiedTo (c : Console) (n : Nat) : Console :=
  { c with lineLengths := fun r => if r < n then 0 else c.lineLengths r }

theorem clearLengths_eq {c : Console} :
    forUpTo (fun i c => storeLength c i 0) c.maxHistoryRows c =
      .ret (emptiedTo c c.maxHistoryRows) := by
  have hstart : emptiedTo c 0 = c := by simp [emptiedTo]
  have hround : ∀ i, i < c.maxHistoryRows →
      storeLength (emptiedTo c i) i 0 = .ret (emptiedTo c (i + 1)) := by
    intro i hi
    rw [storeLength_eq (show i < (emptiedTo c i).maxHistoryRows from hi)]
    simp only [emptiedTo, Console.setLength, Exec.ret.injEq, Console.mk.injEq, true_and, and_true]
    funext r
    by_cases hr : r = i
    · subst hr
      simp
    · rw [Function.update_of_ne hr]
      exact if_congr (by omega) rfl rfl
  have hloop : forUpTo (fun i c => storeLength c i 0) c.maxHistoryRows (emptiedTo c 0) =
      .ret (emptiedTo c c.maxHistoryRows) := forUpTo_eq _ hround
  rwa [hstart] at hloop

theorem screenClear_eq {c : Console} (hrows : 0 < c.maxHistoryRows)
    (hlt : 160 * c.maxHistoryRows < 2 ^ 31) : screenClear c = .ret c.screenClear := by
  have hcells : wrap32 (c.maxHistoryRows * maxCol) = c.maxHistoryRows * maxCol :=
    Nat.mod_eq_of_lt (by unfold maxCol; omega)
  have hcond : ∀ r col, r * maxCol + col < c.maxHistoryRows * maxCol ∧ col < maxCol ↔
      r < c.maxHistoryRows ∧ col < maxCol := by
    unfold maxCol
    omega
  have hlengths := clearLengths_eq (c := { clearedTo c (c.maxHistoryRows * maxCol) with
    absoluteWriteRow := 0, writeCol := 0, viewStartRow := 0 })
  dsimp only at hlengths
  unfold screenClear Console.screenClear
  simp only [hcells, clearCells_eq, Exec.ret_bind]
  rw [hlengths, Exec.ret_bind, updateScreen_eq (by exact hrows)]
  simp only [emptiedTo, clearedTo, hcond]

/-! ### The calls -/

section Calls

variable {c : Console} (h : InBounds c)

include h

theorem setPrintColor_eq (color : Nat) : setPrintColor c color = .ret (c.setPrintColor color) := by
  have hrow := h.slot_lt c.absoluteWriteRow
  unfold setPrintColor Console.setPrintColor
  dsimp only
  rw [loadCell_eq (by exact hrow) h.col_lt, Exec.ret_bind, storeCell_eq (by exact hrow) h.col_lt,
    Exec.ret_bind]
  simp only [Console.setCell]
  by_cases hscreen : wrap32 (c.absoluteWriteRow + 2 ^ 32 - c.viewStartRow) < maxRow
  · rw [if_pos hscreen, if_pos hscreen, loadCell_eq (by exact hrow) h.col_lt, Exec.ret_bind,
      storeVideo_eq hscreen h.col_lt]
    simp only [and_self, if_true]
  · rw [if_neg hscreen, if_neg hscreen]
    rfl

theorem scrollHistoryUp_eq (lines : Nat) :
    scrollHistoryUp c lines = .ret (c.scrollHistoryUp lines) := by
  unfold scrollHistoryUp Console.scrollHistoryUp
  dsimp only
  rw [updateScreen_eq (by exact h.rows_pos)]

theorem scrollHistoryDown_eq (lines : Nat) :
    scrollHistoryDown c lines = .ret (c.scrollHistoryDown lines) := by
  unfold scrollHistoryDown Console.scrollHistoryDown
  dsimp only
  rw [updateScreen_eq (by exact h.rows_pos)]

theorem newline_eq : newline c = .ret c.newline := by
  unfold newline Console.newline
  dsimp only
  rw [storeLength_eq (h.slot_lt _), Exec.ret_bind, wipeRow_eq _ (by exact h.slot_lt _)]

theorem backspace_eq : backspace c = .ret c.backspace := by
  have hcol := h.col_lt
  unfold backspace Console.backspace
  dsimp only
  by_cases hpos : 0 < c.writeCol
  · rw [if_pos hpos, if_pos hpos, storeCell_eq (by exact h.slot_lt _) (by omega)]
  · rw [if_neg hpos, if_neg hpos]
    by_cases hrow : 0 < c.absoluteWriteRow
    · have hlast : (if maxCol ≤ c.lineLengths ((c.absoluteWriteRow - 1) % c.maxHistoryRows)
          then maxCol - 1 else c.lineLengths ((c.absoluteWriteRow - 1) % c.maxHistoryRows)) <
            maxCol := by
        split <;> omega
      rw [if_pos hrow, if_pos hrow, loadLength_eq (by exact h.slot_lt _), Exec.ret_bind,
        storeCell_eq (by exact h.slot_lt _) hlast]
    · rw [if_neg hrow, if_neg hrow]
      rfl

theorem putCell_eq (character : UInt8) : putCell c character = .ret (c.putCell character) := by
  unfold putCell
  dsimp only
  rw [storeCell_eq (h.slot_lt _) h.col_lt, Exec.ret_bind]
  rcases Nat.lt_or_ge (c.writeCol + 1) maxCol with hroom | hfull
  · rw [putCell_of_lt hroom]
    exact if_neg (Nat.not_le_of_lt hroom)
  · rw [putCell_of_le hfull]
    refine (if_pos hfull).trans ?_
    rw [storeLength_eq (by exact h.slot_lt _), Exec.ret_bind, wipeRow_eq _ (by exact h.slot_lt _)]
    rfl

theorem edit_eq (character : UInt8) : edit c character = .ret (c.edit character) := by
  unfold edit Console.edit
  rw [newline_eq h, backspace_eq h, putCell_eq h, ← apply_ite Exec.ret, ← apply_ite Exec.ret]

theorem write_eq (character : UInt8) : write c character = .ret (c.write character) := by
  have hrows : 0 < (c.edit character).follow.maxHistoryRows := by
    show 0 < (c.edit character).maxHistoryRows
    rw [edit_maxHistoryRows]
    exact h.rows_pos
  unfold write
  rw [edit_eq h, Exec.ret_bind, updateScreen_eq hrows, Print.write_eq]

end Calls

theorem printChar_eq {c : Console} (h : InBounds c) (character : UInt8) :
    printChar c character = .ret (c.printChar character) := by
  have hidle : InBounds { c with ansiState := .idle } := h.congr rfl h.col_lt rfl
  unfold printChar Console.printChar
  cases c.ansiState with
  | idle => simp only [write_eq h, Exec.pure_eq, apply_ite Exec.ret]
  | escape => simp only [write_eq hidle, Exec.pure_eq, apply_ite Exec.ret]
  | code => simp only [write_eq hidle, Exec.pure_eq, apply_ite Exec.ret]

/-- A call with checked accesses does what the call does. -/
theorem op_eq {c : Console} (h : InBounds c) {o : Op} (hfits : o.Fits) :
    op c o = .ret (c.op o) := by
  cases o with
  | call call =>
      cases call with
      | print character => exact printChar_eq h character
      | up lines => exact scrollHistoryUp_eq h lines
      | down lines => exact scrollHistoryDown_eq h lines
      | clear => exact screenClear_eq h.rows_pos h.rows_lt
  | setPrintColor color => exact setPrintColor_eq h color
  | enableDynamicHistory totalRows newBuffer newLengths =>
      cases newBuffer with
      | none => rfl
      | some buffer =>
          cases newLengths with
          | none => rfl
          | some lengths => exact screenClear_eq hfits.1 hfits.2

end Checked

/-! ## Runs -/

section Runs

variable {c : Console}

theorem InBounds.advance (h : InBounds c) {length : Nat} (hlength : length ≤ maxCol) :
    InBounds (c.advance length) := by
  refine ⟨h.rows_pos, h.rows_lt, show 0 < maxCol by decide, fun r hr => ?_⟩
  show Function.update c.lineLengths (c.absoluteWriteRow % c.maxHistoryRows) length r ≤ maxCol
  by_cases hrow : r = c.absoluteWriteRow % c.maxHistoryRows
  · rw [hrow, Function.update_self]
    exact hlength
  · rw [Function.update_of_ne hrow]
    exact h.lengths_le r hr

theorem lastCol_lt (c : Console) : c.lastCol < maxCol := by
  unfold Console.lastCol
  split
  · decide
  · exact Nat.lt_of_not_le ‹_›

theorem InBounds.edit (h : InBounds c) (character : UInt8) : InBounds (c.edit character) := by
  have hcol := h.col_lt
  have hput : InBounds (c.setCell (c.absoluteWriteRow % c.maxHistoryRows) c.writeCol
      (c.cell character.toNat)) := h.congr rfl hcol rfl
  refine edit_cases InBounds ?_ ?_ ?_ ?_ ?_ ?_
  · exact fun _ => h.advance hcol.le
  · exact fun _ _ => h.congr rfl (lt_of_le_of_lt (Nat.sub_le _ _) hcol) rfl
  · exact fun _ _ _ => h.congr rfl (lastCol_lt c) rfl
  · exact fun _ _ _ => h
  · exact fun _ _ hroom => h.congr rfl hroom rfl
  · exact fun _ _ _ => hput.advance le_rfl

theorem InBounds.updateScreen (h : InBounds c) : InBounds c.updateScreen :=
  h.congr rfl h.col_lt rfl

theorem InBounds.follow (h : InBounds c) : InBounds c.follow := h.congr rfl h.col_lt rfl

theorem InBounds.write (h : InBounds c) (character : UInt8) : InBounds (c.write character) := by
  rw [write_eq]
  exact (h.edit character).follow.updateScreen

theorem InBounds.printChar (h : InBounds c) (character : UInt8) :
    InBounds (c.printChar character) := by
  have hidle : InBounds { c with ansiState := .idle } := h.congr rfl h.col_lt rfl
  by_cases hconsumes : c.consumes character = true
  · obtain ⟨color, state, code, hret⟩ := printChar_of_consumes hconsumes
    rw [hret]
    exact h.congr rfl h.col_lt rfl
  · rw [printChar_of_not_consumes (by simpa using hconsumes)]
    exact hidle.write character

/-- Every length is cleared, so the old ones do not matter. -/
theorem inBounds_screenClear (hrows : 0 < c.maxHistoryRows)
    (hlt : 160 * c.maxHistoryRows < 2 ^ 31) : InBounds c.screenClear := by
  refine ⟨hrows, hlt, show 0 < maxCol by decide, fun r hr => ?_⟩
  have hzero : c.screenClear.lineLengths r = 0 := if_pos hr
  rw [hzero]
  exact Nat.zero_le _

theorem InBounds.setPrintColor (h : InBounds c) (color : Nat) :
    InBounds (c.setPrintColor color) := by
  unfold Console.setPrintColor
  simp only [Console.setCell]
  split
  · exact h.congr rfl h.col_lt rfl
  · exact h.congr rfl h.col_lt rfl

theorem InBounds.op (h : InBounds c) {o : Op} (hfits : o.Fits) : InBounds (c.op o) := by
  cases o with
  | call call =>
      cases call with
      | print character => exact h.printChar character
      | up lines => exact h.congr rfl h.col_lt rfl
      | down lines => exact h.congr rfl h.col_lt rfl
      | clear => exact inBounds_screenClear h.rows_pos h.rows_lt
  | setPrintColor color => exact h.setPrintColor color
  | enableDynamicHistory totalRows newBuffer newLengths =>
      cases newBuffer with
      | none => exact h
      | some buffer =>
          cases newLengths with
          | none => exact h
          | some lengths => exact inBounds_screenClear hfits.1 hfits.2

/-- The console after a row of calls. -/
def Console.runOps (c : Console) (ops : List Op) : Console := ops.foldl Console.op c

theorem InBounds.run {ops : List Op} : ∀ {c : Console}, InBounds c → (∀ o ∈ ops, o.Fits) →
    Checked.run c ops = .ret (c.runOps ops) ∧ InBounds (c.runOps ops) := by
  induction ops with
  | nil => exact fun h _ => ⟨rfl, h⟩
  | cons o ops ih =>
      intro c h hfits
      obtain ⟨ho, hops⟩ := List.forall_mem_cons.1 hfits
      obtain ⟨hrun, hinv⟩ := ih (h.op ho) hops
      refine ⟨?_, hinv⟩
      rw [Checked.run, Checked.op_eq h ho, Exec.ret_bind, hrun]
      rfl

end Runs

/-- **Console index safety.**  In every run of calls from the boot state, no access has an index
outside its array: with checked accesses the run ends as without.  In the state it leaves, the
write column is a column and no stored length is longer than a row. -/
theorem console_indices {ops : List Op} (hfits : ∀ o ∈ ops, o.Fits) :
    Checked.run bootConsole ops = .ret (bootConsole.runOps ops) ∧
      (bootConsole.runOps ops).writeCol < 80 ∧
      ∀ r, r < (bootConsole.runOps ops).maxHistoryRows →
        (bootConsole.runOps ops).lineLengths r ≤ 80 := by
  obtain ⟨hrun, hinv⟩ := inBounds_bootConsole.run hfits
  exact ⟨hrun, hinv.col_lt, hinv.lengths_le⟩

/-- A ring of one row, and a step back over the end of a row. -/
theorem console_indices_history :
    let ops : List Op := [.enableDynamicHistory 1 (some fun _ _ => 7) (some fun _ => 200),
      .call (.print 65), .call (.print 10), .call (.print 8), .setPrintColor 4, .call (.up 3)]
    Checked.run bootConsole ops = .ret (bootConsole.runOps ops) ∧
      (bootConsole.runOps ops).writeCol < 80 ∧
      ∀ r, r < (bootConsole.runOps ops).maxHistoryRows →
        (bootConsole.runOps ops).lineLengths r ≤ 80 :=
  console_indices (by simp [Op.Fits])

end BenmoshOS.Print
