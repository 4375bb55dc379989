import BenmoshOS.Print.View

/-!
# The console: erasing what has been echoed

A line editor erases a character with the sequence `'\b'`, `' '`, `'\b'`.  Cells are numbered
through from row to row: cell `p` is in column `p % 80` of row `p / 80`.  A character goes
one cell forward and `'\b'` one cell back, over the end of a row as well when that row has
been filled (`At`), so the sequence goes one cell back, and leaves blanks.

The row lengths that `'\b'` reads are those of the ring.  They may be those of newer rows in
the same slots, but all of these have been filled, too.
-/

namespace BenmoshOS.Print

/-- The sequence that erases a character. -/
def eraseSequence : List UInt8 := [8, 32, 8]

/-- A character that is put into a cell. -/
def Ordinary (character : UInt8) : Prop := character ≠ 10 ∧ character ≠ 8 ∧ character ≠ esc

/-- The console writes at cell `p`, and since console `start` every row that has been left
was filled. -/
structure At (start c : Console) (p : Nat) : Prop where
  row : c.absoluteWriteRow = p / maxCol
  col : c.writeCol = p % maxCol
  idle : c.ansiState = .idle
  color : c.currentColor = start.currentColor
  size : c.maxHistoryRows = start.maxHistoryRows
  filled : ∀ r, start.absoluteWriteRow ≤ r → r < p / maxCol →
    c.lineLengths (r % start.maxHistoryRows) = maxCol

/-- The slot and the column of cell `p`. -/
def Console.cellAt (c : Console) (p : Nat) : Nat :=
  c.lineBuffer (p / maxCol % c.maxHistoryRows) (p % maxCol)

/-- Blank cells stay blank. -/
def KeepsBlanks (c c' : Console) : Prop :=
  ∀ r k, c.lineBuffer r k = c.blankCell → c'.lineBuffer r k = c.blankCell

section Steps

variable {start c : Console} {p : Nat}

theorem At.blankCell (h : At start c p) : c.blankCell = start.blankCell := by
  unfold Console.blankCell Console.cell
  rw [h.color]

theorem At.cellAt_eq (h : At start c p) (q : Nat) :
    c.cellAt q = c.lineBuffer (q / maxCol % start.maxHistoryRows) (q % maxCol) := by
  unfold Console.cellAt
  rw [h.size]

/-- Outside of a sequence the parser lets a character through. -/
theorem printChar_idle (hidle : c.ansiState = .idle) {character : UInt8} (hesc : character ≠ esc) :
    c.printChar character = (c.edit character).follow.updateScreen := by
  unfold Console.printChar
  rw [hidle]
  exact if_neg hesc

/-- The view and the screen have no part in writing. -/
theorem At.screen (h : At start c p) : At start c.follow.updateScreen p := { h with }

/-- The next cell in the same row. -/
theorem next_cell (h : p % maxCol + 1 < maxCol) :
    (p + 1) / maxCol = p / maxCol ∧ (p + 1) % maxCol = p % maxCol + 1 := by
  unfold maxCol at *
  constructor <;> omega

/-- The first cell of the next row. -/
theorem next_row (h : maxCol ≤ p % maxCol + 1) :
    (p + 1) / maxCol = p / maxCol + 1 ∧ (p + 1) % maxCol = 0 ∧ p % maxCol = maxCol - 1 := by
  unfold maxCol at *
  refine ⟨?_, ?_, ?_⟩ <;> omega

/-- A character goes one cell forward. -/
theorem At.put (h : At start c p) {character : UInt8} (hchar : Ordinary character)
    (hrow : (p + 1) / maxCol < 2 ^ 32) : At start (c.printChar character) (p + 1) := by
  obtain ⟨hn, hb, hesc⟩ := hchar
  rw [printChar_idle h.idle hesc, edit_putCell hn hb]
  refine At.screen ?_
  rcases Nat.lt_or_ge (p % maxCol + 1) maxCol with hlt | hle
  · obtain ⟨hsame, hcol⟩ := next_cell hlt
    rw [putCell_of_lt (by rwa [h.col])]
    refine ⟨?_, ?_, h.idle, h.color, h.size, ?_⟩
    · rw [hsame]
      exact h.row
    · rw [hcol, ← h.col]
    · rw [hsame]
      exact h.filled
  · obtain ⟨hnext, hcol, -⟩ := next_row hle
    rw [putCell_of_le (by rwa [h.col])]
    refine ⟨?_, hcol.symm, h.idle, h.color, h.size, fun r hr hlt => ?_⟩
    · show wrap32 (c.absoluteWriteRow + 1) = (p + 1) / maxCol
      rw [h.row, ← hnext]
      exact Nat.mod_eq_of_lt hrow
    · show Function.update c.lineLengths (c.absoluteWriteRow % c.maxHistoryRows) maxCol
        (r % start.maxHistoryRows) = maxCol
      rw [h.size, h.row]
      -- the slot of a row that was filled before may be the one that is filled now
      by_cases hslot : r % start.maxHistoryRows = p / maxCol % start.maxHistoryRows
      · rw [hslot, Function.update_self]
      · have hne : r ≠ p / maxCol := fun heq => hslot (by rw [heq])
        rw [Function.update_of_ne hslot]
        exact h.filled r hr (by omega)

/-- `'\b'` goes one cell back, and leaves a blank there. -/
theorem At.back (h : At start c (p + 1)) (hp : start.absoluteWriteRow ≤ p / maxCol) :
    At start (c.printChar 8) p ∧ (c.printChar 8).cellAt p = c.blankCell ∧
      KeepsBlanks c (c.printChar 8) := by
  have hrow := h.row
  rw [printChar_idle h.idle (by decide), edit_backspace]
  rcases Nat.lt_or_ge (p % maxCol + 1) maxCol with hlt | hle
  · obtain ⟨hsame, hcol⟩ := next_cell hlt
    have hcol' : c.writeCol = p % maxCol + 1 := h.col.trans hcol
    rw [backspace_of_col (by omega), hrow, hcol', hsame, Nat.add_sub_cancel]
    refine ⟨At.screen ⟨rfl, rfl, h.idle, h.color, h.size, fun r hr hlt =>
      h.filled r hr (by omega)⟩, if_pos ⟨rfl, rfl⟩, fun r k hblank => ?_⟩
    exact ite_eq_left_iff.2 fun _ => hblank
  · -- over the end of the row above, which was filled
    obtain ⟨hnext, hcol, hend⟩ := next_row hle
    have hlast : c.lastCol = p % maxCol := by
      have hlen : c.lineLengths ((c.absoluteWriteRow - 1) % c.maxHistoryRows) = maxCol := by
        rw [hrow, hnext, Nat.add_sub_cancel, h.size]
        exact h.filled _ hp (by omega)
      unfold Console.lastCol
      rw [hlen, if_pos (le_refl _), hend]
    rw [backspace_of_row (h.col.trans hcol) (by omega), hlast, hrow, hnext, Nat.add_sub_cancel]
    refine ⟨At.screen ⟨rfl, rfl, h.idle, h.color, h.size, fun r hr hlt =>
      h.filled r hr (by omega)⟩, if_pos ⟨rfl, rfl⟩, fun r k hblank => ?_⟩
    exact ite_eq_left_iff.2 fun _ => hblank

/-- A space keeps blank cells blank. -/
theorem keepsBlanks_space (hidle : c.ansiState = .idle) : KeepsBlanks c (c.printChar 32) := by
  rw [printChar_idle hidle (by decide), edit_putCell (by decide) (by decide)]
  intro r k hblank
  have hset : ∀ row col, (if r = row ∧ k = col then c.blankCell else c.lineBuffer r k) =
      c.blankCell := fun row col => ite_eq_left_iff.2 fun _ => hblank
  rcases Nat.lt_or_ge (c.writeCol + 1) maxCol with hlt | hle
  · rw [putCell_of_lt hlt]
    exact hset _ _
  · rw [putCell_of_le hle]
    exact ite_eq_left_iff.2 fun _ => hset _ _

/-- **The sequence** goes one cell back, and leaves a blank there. -/
theorem At.erase (h : At start c (p + 1)) (hp : start.absoluteWriteRow ≤ p / maxCol)
    (hrow : (p + 1) / maxCol < 2 ^ 32) :
    At start (c.puts eraseSequence) p ∧ (c.puts eraseSequence).cellAt p = c.blankCell ∧
      KeepsBlanks c (c.puts eraseSequence) := by
  obtain ⟨h₁, -, hkeep₁⟩ := h.back hp
  have hspace : Ordinary 32 := ⟨by decide, by decide, by decide⟩
  have h₂ := h₁.put hspace hrow
  have hkeep₂ := keepsBlanks_space h₁.idle
  obtain ⟨h₃, hcell, hkeep₃⟩ := h₂.back hp
  have hb₁ : (c.printChar 8).blankCell = c.blankCell := h₁.blankCell.trans h.blankCell.symm
  have hb₂ : ((c.printChar 8).printChar 32).blankCell = c.blankCell :=
    h₂.blankCell.trans h.blankCell.symm
  unfold KeepsBlanks at hkeep₂ hkeep₃
  rw [hb₁] at hkeep₂
  rw [hb₂] at hkeep₃ hcell
  exact ⟨h₃, hcell, fun r k hblank => hkeep₃ r k (hkeep₂ r k (hkeep₁ r k hblank))⟩

end Steps

/-! ## Strings -/

/-- `n` times the sequence. -/
def eraseTimes (n : Nat) : List UInt8 := (List.replicate n eraseSequence).flatten

section Strings

variable {start c : Console} {p : Nat}

theorem puts_append (c : Console) (s t : List UInt8) : c.puts (s ++ t) = (c.puts s).puts t :=
  List.foldl_append

/-- Echoing a string goes forward by its length. -/
theorem At.echo {text : List UInt8} (h : At start c p)
    (htext : ∀ character ∈ text, Ordinary character)
    (hrow : (p + text.length) / maxCol < 2 ^ 32) :
    At start (c.puts text) (p + text.length) := by
  induction text generalizing c p with
  | nil => exact h
  | cons character rest ih =>
      have hlen : p + (character :: rest).length = p + 1 + rest.length := by
        rw [List.length_cons]
        omega
      rw [hlen] at hrow ⊢
      have hfirst : (p + 1) / maxCol < 2 ^ 32 :=
        lt_of_le_of_lt (Nat.div_le_div_right (Nat.le_add_right _ _)) hrow
      have hput := h.put (htext character List.mem_cons_self) hfirst
      exact ih hput (fun ch hch => htext ch (List.mem_cons_of_mem _ hch)) hrow

/-- Erasing goes back as many cells as there are sequences, and leaves blanks. -/
theorem At.back_to {n : Nat} (h : At start c (p + n)) (hp : start.absoluteWriteRow ≤ p / maxCol)
    (hrow : (p + n) / maxCol < 2 ^ 32) :
    At start (c.puts (eraseTimes n)) p ∧ KeepsBlanks c (c.puts (eraseTimes n)) ∧
      ∀ i < n, (c.puts (eraseTimes n)).cellAt (p + i) = c.blankCell := by
  induction n generalizing c with
  | zero => exact ⟨h, fun _ _ hblank => hblank, fun i hi => absurd hi (Nat.not_lt_zero i)⟩
  | succ n ih =>
      have hmid : start.absoluteWriteRow ≤ (p + n) / maxCol :=
        hp.trans (Nat.div_le_div_right (Nat.le_add_right p n))
      have hn : (p + n) / maxCol < 2 ^ 32 :=
        lt_of_le_of_lt (Nat.div_le_div_right (by omega)) hrow
      obtain ⟨h₁, hcell, hkeep₁⟩ := h.erase hmid hrow
      obtain ⟨h₂, hkeep₂, hcells⟩ := ih h₁ hn
      have hblank : (c.puts eraseSequence).blankCell = c.blankCell :=
        h₁.blankCell.trans h.blankCell.symm
      have hsucc : c.puts (eraseTimes (n + 1)) = (c.puts eraseSequence).puts (eraseTimes n) :=
        puts_append c eraseSequence (eraseTimes n)
      unfold KeepsBlanks at hkeep₂
      rw [hblank] at hkeep₂ hcells
      rw [hsucc]
      refine ⟨h₂, fun r k hb => hkeep₂ r k (hkeep₁ r k hb), fun i hi => ?_⟩
      rcases Nat.lt_or_ge i n with hlt | hge
      · exact hcells i hlt
      · -- the cell that the first sequence has erased
        obtain rfl : i = n := Nat.le_antisymm (Nat.lt_succ_iff.1 hi) hge
        rw [h₂.cellAt_eq]
        rw [h₁.cellAt_eq] at hcell
        exact hkeep₂ _ _ hcell

/-- The cell with which the console writes. -/
def Console.position (c : Console) : Nat := c.absoluteWriteRow * maxCol + c.writeCol

/-- The start. -/
theorem at_position (hidle : c.ansiState = .idle) (hcol : c.writeCol < maxCol) :
    At c c c.position := by
  have hrow : c.position / maxCol = c.absoluteWriteRow := by
    unfold Console.position
    rw [Nat.mul_comm, Nat.mul_add_div (show 0 < maxCol by decide), Nat.div_eq_of_lt hcol,
      Nat.add_zero]
  refine ⟨hrow.symm, ?_, hidle, rfl, rfl, fun r hr hlt => ?_⟩
  · unfold Console.position
    rw [Nat.mul_comm, Nat.mul_add_mod, Nat.mod_eq_of_lt hcol]
  · rw [hrow] at hlt
    exact absurd hlt (Nat.not_lt.2 hr)

/-- **Erasing undoes echoing.**  After a string and as many erasing sequences as it has
characters the console writes where it wrote before, in the same colour, and the cells to
which the characters went are blank. -/
theorem erase_undoes_echo (c : Console) (text : List UInt8) (hidle : c.ansiState = .idle)
    (hcol : c.writeCol < maxCol) (htext : ∀ character ∈ text, Ordinary character)
    (hrows : c.absoluteWriteRow + (c.writeCol + text.length) / maxCol < 2 ^ 32) :
    let erased := (c.puts text).puts (eraseTimes text.length)
    erased.absoluteWriteRow = c.absoluteWriteRow ∧ erased.writeCol = c.writeCol ∧
      erased.currentColor = c.currentColor ∧
      ∀ i < text.length,
        let echoed := c.puts (text.take i)
        erased.lineBuffer (echoed.absoluteWriteRow % c.maxHistoryRows) echoed.writeCol =
          erased.blankCell := by
  have hstart := at_position hidle hcol
  have hlast : (c.position + text.length) / maxCol < 2 ^ 32 := by
    unfold Console.position
    rw [Nat.add_assoc, Nat.mul_comm, Nat.mul_add_div (show 0 < maxCol by decide)]
    exact hrows
  have hechoed := hstart.echo htext hlast
  obtain ⟨herased, -, hcells⟩ := hechoed.back_to hstart.row.le hlast
  refine ⟨herased.row.trans hstart.row.symm, herased.col.trans hstart.col.symm, herased.color,
    fun i hi => ?_⟩
  -- before its character `i` the console writes at the cell `i` places from the start
  have hlen : (text.take i).length = i := List.length_take_of_le hi.le
  have hi' : (c.position + (text.take i).length) / maxCol < 2 ^ 32 :=
    lt_of_le_of_lt (Nat.div_le_div_right (by omega)) hlast
  have hbefore := hstart.echo (fun ch hch => htext ch (List.mem_of_mem_take hch)) hi'
  rw [hlen] at hbefore
  have hcell := hcells i hi
  rw [herased.cellAt_eq, ← hbefore.row, ← hbefore.col] at hcell
  exact hcell.trans (hechoed.blankCell.trans herased.blankCell.symm)

/-- Two characters at the end of a row. -/
theorem erase_undoes_echo_wrap :
    let c : Console := { bootConsole with writeCol := 79 }
    ((c.puts [65, 66]).puts (eraseTimes 2)).absoluteWriteRow = 0 ∧
      ((c.puts [65, 66]).puts (eraseTimes 2)).writeCol = 79 :=
  have h := erase_undoes_echo { bootConsole with writeCol := 79 } [65, 66] rfl (by decide)
    (by simp [Ordinary, esc]) (by decide)
  ⟨h.1, h.2.1⟩

end Strings

end BenmoshOS.Print
