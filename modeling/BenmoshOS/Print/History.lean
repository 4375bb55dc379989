import BenmoshOS.Print.View

/-!
# The console: the ring of rows and the history it stands for

`History` is what the ring is for: an array of rows without an end, written by the same
characters.  `Refines` says how a ring of `N` rows stands for it.  A slot of the ring holds
the newest row that was written there, so row `r` of the history is in the ring as long as
no row from `r + N` on has been written (`Held`).

The code does not know the newest row, it knows the row that is written now.  As long as
the writing only goes forward the two are the same.  When `'\b'` has gone back over the ends
of rows, the code takes rows for old ones that the ring has lost.  `Call.Keeps` says which
calls do not come to such rows, and `ring_shows_history` that the screen shows the history
after every run of them.
-/

namespace BenmoshOS.Print

/-! ## The history -/

/-- All rows since the screen was cleared, and how they are written.  `top` is the newest
row. -/
structure History where
  rows : Nat → Nat → Nat
  lengths : Nat → Nat
  row : Nat
  col : Nat
  top : Nat
  color : Nat
  ansiState : AnsiState
  ansiCode : Nat

namespace History

/-- The cell that shows a character in the current colour. -/
def cell (h : History) (character : Nat) : Nat := character ||| h.color * 256

/-- The empty history of a console that has been cleared. -/
def fresh (c : Console) : History :=
  { rows := fun _ _ => c.blankCell, lengths := fun _ => 0, row := 0, col := 0, top := 0,
    color := c.currentColor, ansiState := c.ansiState, ansiCode := c.ansiCode }

/-- Write a cell of a row. -/
def setCell (h : History) (row col cell : Nat) : History :=
  { h with rows := fun r k => if r = row ∧ k = col then cell else h.rows r k }

/-- On to the beginning of the next row, which is empty then. -/
def advance (h : History) (length : Nat) : History :=
  { h with
    rows := fun r k => if r = h.row + 1 then h.cell 32 else h.rows r k
    lengths := Function.update h.lengths h.row length
    row := h.row + 1
    col := 0
    top := max h.top (h.row + 1) }

/-- One step back, over the end of the row above if need be. -/
def backspace (h : History) : History :=
  if 0 < h.col then { h.setCell h.row (h.col - 1) (h.cell 32) with col := h.col - 1 }
  else if 0 < h.row then
    let col := if maxCol ≤ h.lengths (h.row - 1) then maxCol - 1 else h.lengths (h.row - 1)
    { h.setCell (h.row - 1) col (h.cell 32) with row := h.row - 1, col := col }
  else h

/-- A character in its cell. -/
def putCell (h : History) (character : UInt8) : History :=
  let h' := h.setCell h.row h.col (h.cell character.toNat)
  if maxCol ≤ h.col + 1 then h'.advance maxCol else { h' with col := h.col + 1 }

/-- A character behind the parser. -/
def edit (h : History) (character : UInt8) : History :=
  if character = 10 then h.advance h.col
  else if character = 8 then h.backspace
  else h.putCell character

/-- The colour sequences of the parser. -/
def applyAnsiColor (h : History) (code : Nat) : History :=
  if code = 0 then { h with color := 0x0F }
  else match ansiForeground code with
    | some color => { h with color := h.color &&& 0xF0 ||| color }
    | none => h

/-- A character. -/
def printChar (h : History) (character : UInt8) : History :=
  match h.ansiState with
  | .idle =>
      if character = esc then { h with ansiState := .escape } else h.edit character
  | .escape =>
      if character = 91 then { h with ansiState := .code, ansiCode := 0 }
      else History.edit { h with ansiState := .idle } character
  | .code =>
      if 48 ≤ character ∧ character ≤ 57 then
        { h with ansiCode := wrap32 (h.ansiCode * 10 + (character.toNat - 48)) }
      else if character = 109 then { h.applyAnsiColor h.ansiCode with ansiState := .idle }
      else History.edit { h with ansiState := .idle } character

/-- `screen_clear`: all rows are forgotten. -/
def clear (h : History) : History :=
  { h with rows := fun _ _ => h.cell 32, lengths := fun _ => 0, row := 0, col := 0, top := 0 }

/-- Scrolling does nothing to the history. -/
def call (h : History) : Call → History
  | .print character => h.printChar character
  | .up _ => h
  | .down _ => h
  | .clear => h.clear

/-- The history after a row of calls. -/
def run (h : History) (calls : List Call) : History := calls.foldl call h

end History

/-! ## Rows that are in the ring -/

/-- Row `r` is in a ring of `N` rows whose newest row is `top`. -/
def Held (N top r : Nat) : Prop := r ≤ top ∧ top < r + N

/-- Rows in the ring have slots of their own. -/
theorem Held.slot_eq_iff {N top r s : Nat} (hr : Held N top r) (hs : Held N top s) :
    r % N = s % N ↔ r = s := by
  obtain ⟨hr, hr'⟩ := hr
  obtain ⟨hs, hs'⟩ := hs
  refine ⟨fun h => ?_, fun h => by rw [h]⟩
  have hone : ∀ a b : Nat, a ≤ b → b < a + N → a % N = b % N → a = b := by
    intro a b hle hlt hmod
    have hdvd : N ∣ b - a := (Nat.modEq_iff_dvd' hle).1 hmod
    have hzero : b - a = 0 := Nat.eq_zero_of_dvd_of_lt hdvd (by omega)
    omega
  rcases Nat.le_total r s with hle | hle
  · exact hone r s hle (by omega) h
  · exact (hone s r hle (by omega) h.symm).symm

/-! ## The ring stands for the history -/

/-- The rows in the ring are those of the history, and both are written at the same place,
which is in the ring. -/
structure Refines (c : Console) (h : History) : Prop where
  size : maxRow ≤ c.maxHistoryRows
  row : c.absoluteWriteRow = h.row
  col : c.writeCol = h.col
  color : c.currentColor = h.color
  state : c.ansiState = h.ansiState
  code : c.ansiCode = h.ansiCode
  col_lt : h.col < maxCol
  held : Held c.maxHistoryRows h.top h.row
  top_lt : h.top + 1 < 2 ^ 32
  cells : ∀ r, Held c.maxHistoryRows h.top r → ∀ k, k < maxCol →
    c.lineBuffer (r % c.maxHistoryRows) k = h.rows r k
  lengths : ∀ r, r < h.top → Held c.maxHistoryRows h.top r →
    c.lineLengths (r % c.maxHistoryRows) = h.lengths r

section Edit

variable {c : Console} {h : History}

theorem Refines.cell (hr : Refines c h) (character : Nat) :
    c.cell character = h.cell character := by
  unfold Console.cell History.cell
  rw [hr.color]

theorem Refines.blankCell (hr : Refines c h) : c.blankCell = h.cell 32 := hr.cell 32

/-- A cell of a row in the ring. -/
theorem Refines.setCell (hr : Refines c h) {row : Nat} (hrow : Held c.maxHistoryRows h.top row)
    (col cell : Nat) :
    Refines (c.setCell (row % c.maxHistoryRows) col cell) (h.setCell row col cell) := by
  refine { hr with cells := fun r hheld k hk => ?_ }
  have hslot : r % c.maxHistoryRows = row % c.maxHistoryRows ↔ r = row := hheld.slot_eq_iff hrow
  show (if r % c.maxHistoryRows = row % c.maxHistoryRows ∧ k = col then cell
    else c.lineBuffer (r % c.maxHistoryRows) k) = if r = row ∧ k = col then cell else h.rows r k
  simp only [hslot]
  rw [hr.cells r hheld k hk]

/-- Another column of the same row. -/
theorem Refines.moveCol (hr : Refines c h) {col : Nat} (hcol : col < maxCol) :
    Refines { c with writeCol := col } { h with col := col } :=
  { hr with col := rfl, col_lt := hcol }

/-- The next row. -/
theorem Refines.advance (hr : Refines c h) {length : Nat} (hrow : h.row + 2 < 2 ^ 32) :
    Refines (c.advance length) (h.advance length) := by
  have hwrap : wrap32 (c.absoluteWriteRow + 1) = h.row + 1 := by
    rw [hr.row]
    exact Nat.mod_eq_of_lt (by omega)
  have hsize := hr.size
  have htop := hr.top_lt
  obtain ⟨hle, hlt⟩ := hr.held
  unfold maxRow at hsize
  have hleft : Held c.maxHistoryRows (max h.top (h.row + 1)) h.row := ⟨by omega, by omega⟩
  have hnext : Held c.maxHistoryRows (max h.top (h.row + 1)) (h.row + 1) := ⟨by omega, by omega⟩
  -- a row that is in the ring afterwards is the next one, or was in the ring before
  have hbefore : ∀ r, Held c.maxHistoryRows (max h.top (h.row + 1)) r → r ≤ h.top →
      Held c.maxHistoryRows h.top r := fun r hheld hle =>
    ⟨hle, lt_of_le_of_lt (le_max_left _ _) hheld.2⟩
  refine ⟨hr.size, hwrap, rfl, hr.color, hr.state, hr.code, show 0 < maxCol by decide, hnext, ?_,
    fun r hheld k hk => ?_, fun r hrlt hheld => ?_⟩
  · show max h.top (h.row + 1) + 1 < 2 ^ 32
    omega
  · have hslot : r % c.maxHistoryRows = (h.row + 1) % c.maxHistoryRows ↔ r = h.row + 1 :=
      Held.slot_eq_iff hheld hnext
    have hle' : r ≤ max h.top (h.row + 1) := hheld.1
    show (if r % c.maxHistoryRows = wrap32 (c.absoluteWriteRow + 1) % c.maxHistoryRows ∧ k < maxCol
      then c.blankCell else c.lineBuffer (r % c.maxHistoryRows) k) =
        if r = h.row + 1 then h.cell 32 else h.rows r k
    rw [hwrap, hr.blankCell]
    simp only [hslot, hk, and_true]
    by_cases hrn : r = h.row + 1
    · rw [if_pos hrn, if_pos hrn]
    · rw [if_neg hrn, if_neg hrn, hr.cells r (hbefore r hheld (by omega)) k hk]
  · have hslot : r % c.maxHistoryRows = h.row % c.maxHistoryRows ↔ r = h.row :=
      Held.slot_eq_iff hheld hleft
    show Function.update c.lineLengths (c.absoluteWriteRow % c.maxHistoryRows) length
      (r % c.maxHistoryRows) = Function.update h.lengths h.row length r
    rw [hr.row]
    by_cases hrn : r = h.row
    · rw [hrn, Function.update_self, Function.update_self]
    · have hrlt' : r < max h.top (h.row + 1) := hrlt
      rw [Function.update_of_ne (mt hslot.1 hrn), Function.update_of_ne hrn,
        hr.lengths r (by omega) (hbefore r hheld (by omega))]

/-- One step back, to a row that is in the ring. -/
theorem Refines.backspace (hr : Refines c h) (hheld : h.top < c.nextRow 8 + c.maxHistoryRows) :
    Refines c.backspace h.backspace := by
  obtain ⟨hle, hlt⟩ := hr.held
  have hnext : c.nextRow 8 =
      if 0 < c.writeCol then c.absoluteWriteRow else c.absoluteWriteRow - 1 := rfl
  unfold History.backspace
  rcases Nat.eq_zero_or_pos c.writeCol with hcol | hcol
  · have hcol' : ¬ 0 < h.col := by
      rw [← hr.col]
      omega
    rw [if_neg hcol']
    rcases Nat.eq_zero_or_pos c.absoluteWriteRow with hrow | hrow
    · rw [backspace_of_zero hcol hrow, if_neg (by rw [← hr.row]; omega)]
      exact hr
    · rw [backspace_of_row hcol hrow, if_pos (by rwa [← hr.row]), hr.row, hr.blankCell]
      rw [if_neg (by omega), hr.row] at hnext
      rw [hnext] at hheld
      rw [hr.row] at hrow
      have habove : Held c.maxHistoryRows h.top (h.row - 1) := ⟨by omega, hheld⟩
      have hlast : c.lastCol = if maxCol ≤ h.lengths (h.row - 1) then maxCol - 1
          else h.lengths (h.row - 1) := by
        unfold Console.lastCol
        rw [hr.row, hr.lengths (h.row - 1) (by omega) habove]
      rw [hlast]
      dsimp only
      generalize hlen : h.lengths (h.row - 1) = length
      have hlt80 : (if maxCol ≤ length then maxCol - 1 else length) < maxCol := by
        unfold maxCol
        split <;> omega
      exact { hr.setCell habove _ _ with
        row := rfl, col := rfl, col_lt := hlt80, held := habove }
  · rw [backspace_of_col hcol, if_pos (by rwa [← hr.col]), hr.row, hr.col, hr.blankCell]
    have hlt80 := hr.col_lt
    have hleft : h.col - 1 < maxCol := by omega
    exact { hr.setCell hr.held _ _ with row := rfl, col := rfl, col_lt := hleft }

/-- **A character behind the parser** that leads to a row in the ring. -/
theorem Refines.edit (hr : Refines c h) {character : UInt8}
    (hrow : c.nextRow character + 1 < 2 ^ 32)
    (hheld : h.top < c.nextRow character + c.maxHistoryRows) :
    Refines (c.edit character) (h.edit character) := by
  unfold History.edit
  by_cases hn : character = 10
  · subst hn
    rw [if_pos rfl, edit_newline, hr.col]
    have hnext : c.nextRow 10 = c.absoluteWriteRow + 1 := rfl
    rw [hnext, hr.row] at hrow
    exact hr.advance (by omega)
  · rw [if_neg hn]
    by_cases hb : character = 8
    · subst hb
      rw [if_pos rfl]
      exact hr.backspace hheld
    · rw [if_neg hb, edit_putCell hn hb]
      unfold History.putCell
      have hset : Refines (c.setCell (c.absoluteWriteRow % c.maxHistoryRows) c.writeCol
          (c.cell character.toNat)) (h.setCell h.row h.col (h.cell character.toNat)) := by
        rw [hr.row, hr.col, hr.cell]
        exact hr.setCell hr.held _ _
      unfold Console.nextRow at hrow
      rw [if_neg hn, if_neg hb] at hrow
      rcases Nat.lt_or_ge (c.writeCol + 1) maxCol with hlt | hle
      · rw [putCell_of_lt hlt, if_neg (by rw [← hr.col]; omega), hr.col]
        have hcol := hset.moveCol (by rwa [hr.col] at hlt)
        rw [hr.col] at hcol
        exact hcol
      · rw [putCell_of_le hle, if_pos (by rwa [← hr.col])]
        rw [if_pos hle, hr.row] at hrow
        exact hset.advance hrow

end Edit

/-! ## The screen -/

section Screen

variable {c : Console} {h : History}

/-- Every row that `update_screen` takes from the ring shows its row of the history. -/
def Shows (c : Console) (h : History) : Prop :=
  ∀ i, i < maxRow → ∀ k, k < maxCol → c.oldestRow ≤ wrap32 (c.viewStartRow + i) →
    wrap32 (c.viewStartRow + i) ≤ c.absoluteWriteRow →
    c.videoMemory (i * maxCol + k) = h.rows (wrap32 (c.viewStartRow + i)) k

/-- The rows in view that the code takes for rows in the ring are in the ring: the row that
is written is the newest one, or the first row in view is in the ring, or the view has been
forgotten as a whole. -/
def Kept (c : Console) (h : History) : Prop :=
  h.top = h.row ∨ h.top < c.viewStartRow + c.maxHistoryRows ∨
    c.viewStartRow + (maxRow - 1) + c.maxHistoryRows ≤ h.row

/-- The view ends at the newest row at the latest. -/
def InView (c : Console) (h : History) : Prop :=
  c.viewStartRow = 0 ∨ c.viewStartRow + (maxRow - 1) ≤ h.top

theorem InView.lt (hview : InView c h) (hr : Refines c h) : c.viewStartRow + maxRow < 2 ^ 32 := by
  have htop := hr.top_lt
  unfold InView maxRow at *
  omega

/-- Copying the rows in view to the screen. -/
theorem shows_updateScreen (hr : Refines c h) (hview : InView c h) (hkept : Kept c h) :
    Shows c.updateScreen h := by
  intro i hi k hk hold hle
  have hlt := hview.lt hr
  have hwrap : wrap32 (c.viewStartRow + i) = c.viewStartRow + i := Nat.mod_eq_of_lt (by omega)
  change c.oldestRow ≤ wrap32 (c.viewStartRow + i) at hold
  change wrap32 (c.viewStartRow + i) ≤ c.absoluteWriteRow at hle
  have hindex : i * maxCol + k < maxRow * maxCol := by
    unfold maxRow maxCol at *
    omega
  have hdiv : (i * maxCol + k) / maxCol = i := by
    unfold maxCol at *
    omega
  have hmod : (i * maxCol + k) % maxCol = k := by
    unfold maxCol at *
    omega
  show (if i * maxCol + k < maxRow * maxCol then
    c.screenCell ((i * maxCol + k) / maxCol) ((i * maxCol + k) % maxCol)
      else c.videoMemory (i * maxCol + k)) = h.rows (wrap32 (c.viewStartRow + i)) k
  rw [if_pos hindex, hdiv, hmod]
  unfold Console.screenCell
  rw [if_pos ⟨hold, hle⟩, hwrap]
  rw [hwrap] at hold hle
  refine hr.cells _ ⟨?_, ?_⟩ k hk
  · have := hr.held.1
    have := hr.row
    omega
  · -- a row that passes the code's check for old rows
    have hsize := hr.size
    have hrow := hr.row
    unfold Console.oldestRow at hold
    unfold Kept maxRow at *
    rcases hkept with heq | hlt | hforgotten
    · split at hold <;> omega
    · omega
    · rw [if_pos (by omega)] at hold
      omega

/-- The view, the screen and the cursor are no part of the ring. -/
theorem Refines.screen (hr : Refines c h) (view : Nat) (video : Nat → Nat) (cursor : Nat) :
    Refines { c with viewStartRow := view, videoMemory := video, cursor := cursor } h :=
  { hr with }

/-- The newest row after a character. -/
theorem top_edit {character : UInt8} (hle : h.row ≤ h.top) :
    (h.edit character).top = max h.top (h.edit character).row := by
  unfold History.edit
  by_cases hn : character = 10
  · rw [if_pos hn]
    rfl
  · rw [if_neg hn]
    by_cases hb : character = 8
    · rw [if_pos hb]
      unfold History.backspace
      split
      · exact (max_eq_left hle).symm
      · split
        · exact (max_eq_left (show h.row - 1 ≤ h.top by omega)).symm
        · exact (max_eq_left hle).symm
    · rw [if_neg hb]
      unfold History.putCell
      dsimp only
      split
      · rfl
      · exact (max_eq_left hle).symm

end Screen

/-! ## Calls that keep the history -/

/-- The call does not come to rows that the ring has lost.  A character must not lead back to
such a row, nor show one; scrolling must not show one. -/
def Call.Keeps (c : Console) (h : History) : Call → Prop
  | .print character => c.consumes character = false →
      c.nextRow character + 1 < 2 ^ 32 ∧
      h.top < c.nextRow character + c.maxHistoryRows ∧
      (h.top ≤ c.nextRow character ∨
        h.top < max c.viewStartRow (c.nextRow character - (maxRow - 1)) + c.maxHistoryRows)
  | .up lines => h.top = h.row ∨ h.top < c.viewStartRow - lines + c.maxHistoryRows
  | .down lines =>
      h.top = h.row ∨
      h.top < min (wrap32 (c.viewStartRow + lines)) (h.row - (maxRow - 1)) + c.maxHistoryRows ∨
      min (wrap32 (c.viewStartRow + lines)) (h.row - (maxRow - 1)) + (maxRow - 1) +
        c.maxHistoryRows ≤ h.row
  | .clear => True

/-- The ring, the view and the screen stand for the history. -/
structure Stands (c : Console) (h : History) : Prop where
  refines : Refines c h
  inView : InView c h
  kept : Kept c h
  shows : Shows c h

section Steps

variable {c : Console} {h : History}

/-- Copying to the screen what is in view. -/
theorem Refines.stands (hr : Refines c h) (hview : InView c h) (hkept : Kept c h) :
    Stands c.updateScreen h :=
  ⟨hr.screen _ _ _, hview, hkept, shows_updateScreen hr hview hkept⟩

/-- A character behind the parser. -/
theorem Stands.write (hr : Refines c h) (hview : InView c h) {character : UInt8}
    (hrow : c.nextRow character + 1 < 2 ^ 32)
    (hheld : h.top < c.nextRow character + c.maxHistoryRows)
    (hshow : h.top ≤ c.nextRow character ∨
      h.top < max c.viewStartRow (c.nextRow character - (maxRow - 1)) + c.maxHistoryRows) :
    Stands (c.write character) (h.edit character) := by
  have hlt := hview.lt hr
  have hedit := hr.edit hrow hheld
  have hnext : (h.edit character).row = c.nextRow character := by
    rw [← hedit.row]
    exact edit_absoluteWriteRow (by omega)
  have htop : (h.edit character).top = max h.top (c.nextRow character) := by
    rw [← hnext]
    exact top_edit hr.held.1
  have hv : ((c.edit character).follow).viewStartRow = _ := view_write hlt (by omega)
  have hN : ((c.edit character).follow).maxHistoryRows = c.maxHistoryRows := edit_maxHistoryRows ..
  have href : Refines (c.edit character).follow (h.edit character) := hedit.screen _ _ _
  have hin : InView (c.edit character).follow (h.edit character) := by
    unfold InView at hview ⊢
    rw [hv, htop]
    unfold maxRow at *
    split <;> omega
  have hkept : Kept (c.edit character).follow (h.edit character) := by
    unfold Kept
    rw [hv, htop, hnext, hN]
    unfold maxRow at *
    split <;> omega
  rw [write_eq]
  exact href.stands hin hkept

/-- `apply_ansi_color` sets the same colour on both sides. -/
theorem applyAnsiColor_eq (hcolor : c.currentColor = h.color) (code : Nat) :
    ∃ color, c.applyAnsiColor code = { c with currentColor := color } ∧
      h.applyAnsiColor code = { h with color := color } := by
  unfold Console.applyAnsiColor History.applyAnsiColor
  split
  · exact ⟨_, rfl, rfl⟩
  · cases ansiForeground code with
    | none => exact ⟨c.currentColor, rfl, by rw [hcolor]⟩
    | some color => exact ⟨_, rfl, by rw [hcolor]⟩

/-- A character: the parser takes it on both sides, or it is written on both sides. -/
theorem Stands.printChar (hs : Stands c h) {character : UInt8}
    (hkeeps : (Call.print character).Keeps c h) :
    Stands (c.printChar character) (h.printChar character) := by
  have hr := hs.refines
  have hwrite : c.consumes character = false → Stands
      (Console.write { c with ansiState := .idle } character)
      (History.edit { h with ansiState := .idle } character) := fun hproc => by
    obtain ⟨hrow, hheld, hshow⟩ := hkeeps hproc
    exact Stands.write (c := { c with ansiState := .idle }) (h := { h with ansiState := .idle })
      { hr with state := rfl } hs.inView hrow hheld hshow
  unfold Console.printChar History.printChar
  rw [← hr.state]
  unfold Console.consumes at hwrite
  cases hstate : c.ansiState with
  | idle =>
      have hstate' : h.ansiState = .idle := hr.state.symm.trans hstate
      rw [hstate] at hwrite
      dsimp only at hwrite ⊢
      by_cases hesc : character = esc
      · rw [if_pos hesc, if_pos hesc]
        exact ⟨{ hr with state := rfl }, hs.inView, hs.kept, hs.shows⟩
      · rw [if_neg hesc, if_neg hesc]
        have hc : { c with ansiState := .idle } = c := by rw [← hstate]
        have hh : { h with ansiState := .idle } = h := by rw [← hstate']
        rw [hc, hh] at hwrite
        exact hwrite (decide_eq_false hesc)
  | escape =>
      rw [hstate] at hwrite
      dsimp only at hwrite ⊢
      by_cases hbracket : character = 91
      · rw [if_pos hbracket, if_pos hbracket]
        exact ⟨{ hr with state := rfl, code := rfl }, hs.inView, hs.kept, hs.shows⟩
      · rw [if_neg hbracket, if_neg hbracket]
        exact hwrite (decide_eq_false hbracket)
  | code =>
      rw [hstate] at hwrite
      dsimp only at hwrite ⊢
      by_cases hdigit : 48 ≤ character ∧ character ≤ 57
      · rw [if_pos hdigit, if_pos hdigit, hr.code]
        exact ⟨{ hr with code := rfl, state := rfl }, hs.inView, hs.kept, hs.shows⟩
      · rw [if_neg hdigit, if_neg hdigit]
        by_cases hm : character = 109
        · rw [if_pos hm, if_pos hm]
          obtain ⟨color, hc, hh⟩ := applyAnsiColor_eq hr.color c.ansiCode
          rw [← hr.code, hc, hh]
          exact ⟨{ hr with color := rfl, state := rfl }, hs.inView, hs.kept, hs.shows⟩
        · rw [if_neg hm, if_neg hm]
          exact hwrite (decide_eq_false (not_or.2 ⟨hdigit, hm⟩))

/-- `screen_clear` without the copy to the screen. -/
def Console.cleared (c : Console) : Console :=
  { c with
    lineBuffer := fun r col =>
      if r < c.maxHistoryRows ∧ col < maxCol then c.blankCell else c.lineBuffer r col
    lineLengths := fun r => if r < c.maxHistoryRows then 0 else c.lineLengths r
    absoluteWriteRow := 0
    writeCol := 0
    viewStartRow := 0 }

/-- `screen_clear` starts a new history. -/
theorem stands_screenClear (hsize : maxRow ≤ c.maxHistoryRows) (hcolor : c.currentColor = h.color)
    (hstate : c.ansiState = h.ansiState) (hcode : c.ansiCode = h.ansiCode) :
    Stands c.screenClear h.clear := by
  have hpos : 0 < c.maxHistoryRows := Nat.lt_of_lt_of_le (by decide) hsize
  have hblank : c.blankCell = h.cell 32 := by
    unfold Console.blankCell Console.cell History.cell
    rw [hcolor]
  have href : Refines c.cleared h.clear :=
    { size := hsize, row := rfl, col := rfl, color := hcolor, state := hstate, code := hcode
      col_lt := show 0 < maxCol by decide
      held := ⟨le_refl 0, show 0 < 0 + c.maxHistoryRows by omega⟩
      top_lt := show 0 + 1 < 2 ^ 32 by decide
      cells := fun r _ k hk => (if_pos ⟨Nat.mod_lt r hpos, hk⟩).trans hblank
      lengths := fun r hr _ => absurd hr (Nat.not_lt_zero r) }
  exact href.stands (Or.inl rfl) (Or.inl rfl)

/-- Another view. -/
theorem Stands.scroll (hs : Stands c h) {view : Nat}
    (hin : InView { c with viewStartRow := view } h)
    (hkept : Kept { c with viewStartRow := view } h) :
    Stands (Console.updateScreen { c with viewStartRow := view }) h :=
  have href : Refines { c with viewStartRow := view } h := hs.refines.screen _ _ _
  href.stands hin hkept

/-- **One call** that keeps the history. -/
theorem Stands.call (hs : Stands c h) {call : Call} (hkeeps : call.Keeps c h) :
    Stands (c.call call) (h.call call) := by
  have hview := hs.inView
  have hsize := hs.refines.size
  have hrow := hs.refines.row
  obtain ⟨hle, -⟩ := hs.refines.held
  cases call with
  | print character => exact hs.printChar hkeeps
  | up lines =>
      rw [Console.call, scrollHistoryUp_eq]
      refine hs.scroll ?_ ?_
      · unfold InView Console.oldestRow maxRow at *
        dsimp only
        split <;> omega
      · have hkeeps' : h.top = h.row ∨ h.top < c.viewStartRow - lines + c.maxHistoryRows := hkeeps
        unfold Kept
        dsimp only
        omega
  | down lines =>
      rw [Console.call, scrollHistoryDown_eq]
      refine hs.scroll ?_ ?_
      · unfold InView maxRow at *
        dsimp only
        omega
      · unfold Kept
        rw [hrow]
        exact hkeeps
  | clear => exact stands_screenClear hsize hs.refines.color hs.refines.state hs.refines.code

end Steps

/-! ## Runs -/

/-- Every call of the run keeps the history. -/
def KeepsAll : Console → History → List Call → Prop
  | _, _, [] => True
  | c, h, call :: calls => call.Keeps c h ∧ KeepsAll (c.call call) (h.call call) calls

theorem Stands.run {calls : List Call} : ∀ {c : Console} {h : History}, Stands c h →
    KeepsAll c h calls → ∀ {before after : List Call}, calls = before ++ after →
    Stands (c.run before) (h.run before) := by
  induction calls with
  | nil =>
      intro c h hs _ before after hsplit
      obtain ⟨rfl, -⟩ := List.append_eq_nil_iff.1 hsplit.symm
      exact hs
  | cons call calls ih =>
      intro c h hs hkeeps before after hsplit
      cases before with
      | nil => exact hs
      | cons first before =>
          obtain ⟨rfl, hrest⟩ := List.cons.inj hsplit
          exact ih (hs.call hkeeps.1) hkeeps.2 hrest

/-- **The screen shows the history.**  In every run from `screen_clear` whose calls keep the
history, after each call: every row that `update_screen` takes from the ring shows what the
history has in that row. -/
theorem ring_shows_history {c : Console} (hsize : 25 ≤ c.maxHistoryRows) {calls : List Call}
    (hkeeps : KeepsAll c.screenClear (History.fresh c) calls) :
    ∀ before after, calls = before ++ after →
      Shows (c.screenClear.run before) ((History.fresh c).run before) := by
  intro before after hsplit
  have hstart : Stands c.screenClear (History.fresh c) :=
    stands_screenClear (h := History.fresh c) hsize rfl rfl rfl
  exact (hstart.run hkeeps hsplit).shows

instance (c : Console) (h : History) (call : Call) : Decidable (call.Keeps c h) :=
  match call with
  | .print _ => inferInstanceAs (Decidable (_ → _))
  | .up _ => inferInstanceAs (Decidable (_ ∨ _))
  | .down _ => inferInstanceAs (Decidable (_ ∨ _))
  | .clear => inferInstanceAs (Decidable True)

instance decidableKeepsAll : (c : Console) → (h : History) → (calls : List Call) →
    Decidable (KeepsAll c h calls)
  | _, _, [] => inferInstanceAs (Decidable True)
  | c, h, call :: calls =>
      @instDecidableAnd _ _ inferInstance (decidableKeepsAll (c.call call) (h.call call) calls)

/-- The ends of 30 rows, a character, two steps back into the row above and a character there. -/
def wrapped : List Call :=
  List.replicate 30 (Call.print 10) ++ [Call.print 65, Call.print 8, Call.print 8, Call.print 66]

/-- On a ring of 25 rows the history of those 31 rows is still shown right. -/
theorem ring_shows_history_wrapped :
    Shows (bootConsole.screenClear.run wrapped) ((History.fresh bootConsole).run wrapped) :=
  ring_shows_history (show 25 ≤ bootConsole.maxHistoryRows by decide)
    (show KeepsAll bootConsole.screenClear (History.fresh bootConsole) wrapped by decide +kernel)
    wrapped [] (List.append_nil _).symm

/-- 'A', the end of 25 rows, one step back and one line up. -/
def overwritten : List Call :=
  Call.print 65 :: List.replicate 25 (Call.print 10) ++ [Call.print 8, Call.up 1]

/-- Row 25 has taken the place of row 0 in a ring of 25 rows.  After the step back the code
takes row 0 for the oldest row, and shows the blanks of row 25. -/
theorem ring_shows_history_false :
    ¬ ∀ (c : Console) (calls : List Call), 25 ≤ c.maxHistoryRows →
      ∀ before after, calls = before ++ after →
        Shows (c.screenClear.run before) ((History.fresh c).run before) := by
  intro h
  have hshows := h bootConsole overwritten (by decide) overwritten [] (List.append_nil _).symm 0
    (by decide) 0 (by decide) (by decide +kernel) (by decide +kernel)
  revert hshows
  decide +kernel

end BenmoshOS.Print
