import BenmoshOS.Print.Console

/-!
# The console: the row that is written and the view

The lock at the end of `print_char` moves the view down when the row that is written is
below it.  It does not move the view up.  So `'\b'`, which goes back over the ends of rows,
can leave the view, and from then on what is typed is not on the screen: the row that is
written is visible after a character exactly when the view did not start below the row the
character leads to (`visible_iff`).
-/

namespace BenmoshOS.Print

/-! ## Calls -/

/-- The calls that change the console. -/
inductive Call where
  | print (character : UInt8)
  | up (lines : Nat)
  | down (lines : Nat)
  | clear
  deriving DecidableEq, Repr

/-- The console after a call. -/
def Console.call (c : Console) : Call → Console
  | .print character => c.printChar character
  | .up lines => c.scrollHistoryUp lines
  | .down lines => c.scrollHistoryDown lines
  | .clear => c.screenClear

/-- The escape-sequence parser takes the character. -/
def Console.consumes (c : Console) (character : UInt8) : Bool :=
  match c.ansiState with
  | .idle => character = esc
  | .escape => character = 91
  | .code => (48 ≤ character ∧ character ≤ 57) ∨ character = 109

/-- The three branches of `print_char` behind the parser. -/
def Console.edit (c : Console) (character : UInt8) : Console :=
  if character = 10 then c.newline
  else if character = 8 then c.backspace
  else c.putCell character

theorem write_eq (c : Console) (character : UInt8) :
    c.write character = (c.edit character).follow.updateScreen := rfl

/-- The row that a character leads to. -/
def Console.nextRow (c : Console) (character : UInt8) : Nat :=
  if character = 10 then c.absoluteWriteRow + 1
  else if character = 8 then
    if 0 < c.writeCol then c.absoluteWriteRow else c.absoluteWriteRow - 1
  else if maxCol ≤ c.writeCol + 1 then c.absoluteWriteRow + 1
  else c.absoluteWriteRow

section Calls

variable {c : Console} {character : UInt8}

theorem printChar_of_not_consumes (h : c.consumes character = false) :
    c.printChar character = Console.write { c with ansiState := .idle } character := by
  unfold Console.consumes at h
  unfold Console.printChar
  cases hstate : c.ansiState with
  | idle =>
      rw [hstate] at h
      have hesc : character ≠ esc := by simpa using h
      dsimp only
      rw [if_neg hesc, ← hstate]
  | escape =>
      rw [hstate] at h
      have hbracket : character ≠ 91 := by simpa using h
      dsimp only
      rw [if_neg hbracket]
  | code =>
      rw [hstate] at h
      have hcode : ¬ (48 ≤ character ∧ character ≤ 57) ∧ character ≠ 109 := by
        simpa only [decide_eq_false_iff_not, not_or] using h
      dsimp only
      rw [if_neg hcode.1, if_neg hcode.2]

/-- A character for the parser changes the parser and the colour. -/
theorem printChar_of_consumes (h : c.consumes character = true) :
    ∃ color state code, c.printChar character =
      { c with currentColor := color, ansiState := state, ansiCode := code } := by
  unfold Console.consumes at h
  unfold Console.printChar
  cases hstate : c.ansiState with
  | idle =>
      rw [hstate] at h
      have hesc : character = esc := by simpa using h
      dsimp only
      rw [if_pos hesc]
      exact ⟨_, _, _, rfl⟩
  | escape =>
      rw [hstate] at h
      have hbracket : character = 91 := by simpa using h
      dsimp only
      rw [if_pos hbracket]
      exact ⟨_, _, _, rfl⟩
  | code =>
      rw [hstate] at h
      have hcode : (48 ≤ character ∧ character ≤ 57) ∨ character = 109 := by simpa using h
      dsimp only
      by_cases hdigit : 48 ≤ character ∧ character ≤ 57
      · rw [if_pos hdigit]
        exact ⟨_, _, _, rfl⟩
      · rw [if_neg hdigit, if_pos (hcode.resolve_left hdigit)]
        unfold Console.applyAnsiColor
        split
        · exact ⟨_, _, _, rfl⟩
        · split <;> exact ⟨_, _, _, rfl⟩

end Calls

/-! ## The branches of `print_char` -/

section Branches

variable {c : Console} {character : UInt8}

/-- On to the beginning of the next row: `length` is noted for the row that is left, and the
next one is wiped. -/
def Console.advance (c : Console) (length : Nat) : Console :=
  Console.wipeRow
    { c.setLength (c.absoluteWriteRow % c.maxHistoryRows) length with
      writeCol := 0, absoluteWriteRow := wrap32 (c.absoluteWriteRow + 1) }
    (wrap32 (c.absoluteWriteRow + 1) % c.maxHistoryRows) c.blankCell

theorem edit_newline : c.edit 10 = c.advance c.writeCol := rfl

theorem edit_backspace : c.edit 8 = c.backspace := rfl

theorem edit_putCell (hn : character ≠ 10) (hb : character ≠ 8) :
    c.edit character = c.putCell character := by
  unfold Console.edit
  rw [if_neg hn, if_neg hb]

/-- `'\b'` inside a row. -/
theorem backspace_of_col (h : 0 < c.writeCol) : c.backspace =
    Console.setCell { c with writeCol := c.writeCol - 1 } (c.absoluteWriteRow % c.maxHistoryRows)
      (c.writeCol - 1) c.blankCell := by
  unfold Console.backspace
  rw [if_pos h]

/-- The column to which `'\b'` comes back in the row above. -/
def Console.lastCol (c : Console) : Nat :=
  if maxCol ≤ c.lineLengths ((c.absoluteWriteRow - 1) % c.maxHistoryRows) then maxCol - 1
  else c.lineLengths ((c.absoluteWriteRow - 1) % c.maxHistoryRows)

/-- `'\b'` at the beginning of a row. -/
theorem backspace_of_row (h : c.writeCol = 0) (hrow : 0 < c.absoluteWriteRow) : c.backspace =
    Console.setCell
      { c with absoluteWriteRow := c.absoluteWriteRow - 1, writeCol := c.lastCol }
      ((c.absoluteWriteRow - 1) % c.maxHistoryRows) c.lastCol c.blankCell := by
  unfold Console.backspace
  rw [if_neg (by omega), if_pos hrow]
  rfl

theorem backspace_of_zero (h : c.writeCol = 0) (hrow : c.absoluteWriteRow = 0) :
    c.backspace = c := by
  unfold Console.backspace
  rw [if_neg (by omega), if_neg (by omega)]

/-- A character that leaves room in its row. -/
theorem putCell_of_lt (h : c.writeCol + 1 < maxCol) : c.putCell character =
    { c.setCell (c.absoluteWriteRow % c.maxHistoryRows) c.writeCol (c.cell character.toNat) with
      writeCol := c.writeCol + 1 } :=
  if_neg (Nat.not_le_of_lt h)

/-- A character that fills its row. -/
theorem putCell_of_le (h : maxCol ≤ c.writeCol + 1) : c.putCell character =
    (c.setCell (c.absoluteWriteRow % c.maxHistoryRows) c.writeCol
      (c.cell character.toNat)).advance maxCol :=
  if_pos h

/-- What a character does, by the branch it takes. -/
theorem edit_cases (P : Console → Prop) (hnewline : character = 10 → P (c.advance c.writeCol))
    (hcol : character = 8 → 0 < c.writeCol → P (Console.setCell { c with
      writeCol := c.writeCol - 1 } (c.absoluteWriteRow % c.maxHistoryRows) (c.writeCol - 1)
        c.blankCell))
    (hrow : character = 8 → c.writeCol = 0 → 0 < c.absoluteWriteRow → P (Console.setCell
      { c with absoluteWriteRow := c.absoluteWriteRow - 1, writeCol := c.lastCol }
      ((c.absoluteWriteRow - 1) % c.maxHistoryRows) c.lastCol c.blankCell))
    (hzero : character = 8 → c.writeCol = 0 → c.absoluteWriteRow = 0 → P c)
    (hlt : character ≠ 10 → character ≠ 8 → c.writeCol + 1 < maxCol →
      P { c.setCell (c.absoluteWriteRow % c.maxHistoryRows) c.writeCol (c.cell character.toNat) with
        writeCol := c.writeCol + 1 })
    (hle : character ≠ 10 → character ≠ 8 → maxCol ≤ c.writeCol + 1 →
      P ((c.setCell (c.absoluteWriteRow % c.maxHistoryRows) c.writeCol
        (c.cell character.toNat)).advance maxCol)) :
    P (c.edit character) := by
  by_cases hn : character = 10
  · subst hn
    rw [edit_newline]
    exact hnewline rfl
  · by_cases hb : character = 8
    · subst hb
      rw [edit_backspace]
      rcases Nat.eq_zero_or_pos c.writeCol with h | h
      · rcases Nat.eq_zero_or_pos c.absoluteWriteRow with h' | h'
        · rw [backspace_of_zero h h']
          exact hzero rfl h h'
        · rw [backspace_of_row h h']
          exact hrow rfl h h'
      · rw [backspace_of_col h]
        exact hcol rfl h
    · rw [edit_putCell hn hb]
      rcases Nat.lt_or_ge (c.writeCol + 1) maxCol with h | h
      · rw [putCell_of_lt h]
        exact hlt hn hb h
      · rw [putCell_of_le h]
        exact hle hn hb h

@[simp] theorem edit_viewStartRow (c : Console) (character : UInt8) :
    (c.edit character).viewStartRow = c.viewStartRow := by
  refine edit_cases (fun d => d.viewStartRow = c.viewStartRow) ?_ ?_ ?_ ?_ ?_ ?_ <;> intros <;> rfl

@[simp] theorem edit_maxHistoryRows (c : Console) (character : UInt8) :
    (c.edit character).maxHistoryRows = c.maxHistoryRows := by
  refine edit_cases (fun d => d.maxHistoryRows = c.maxHistoryRows) ?_ ?_ ?_ ?_ ?_ ?_ <;>
    intros <;> rfl

theorem edit_absoluteWriteRow (h : c.nextRow character < 2 ^ 32) :
    (c.edit character).absoluteWriteRow = c.nextRow character := by
  revert h
  refine edit_cases (fun d => c.nextRow character < 2 ^ 32 →
    d.absoluteWriteRow = c.nextRow character) ?_ ?_ ?_ ?_ ?_ ?_
  · rintro rfl h
    exact Nat.mod_eq_of_lt h
  · rintro rfl hcol -
    exact (if_pos hcol).symm
  · rintro rfl hcol hrow -
    exact (if_neg (Nat.not_lt.2 hcol.le)).symm
  · rintro rfl hcol hrow -
    have hnext : c.nextRow 8 = c.absoluteWriteRow - 1 := if_neg (Nat.not_lt.2 hcol.le)
    rw [hnext, hrow]
  · intro hn hb hlt _
    unfold Console.nextRow
    rw [if_neg hn, if_neg hb, if_neg (Nat.not_le_of_lt hlt)]
    rfl
  · intro hn hb hle h
    unfold Console.nextRow at h ⊢
    rw [if_neg hn, if_neg hb, if_pos hle] at h ⊢
    exact Nat.mod_eq_of_lt h

end Branches

/-! ## Scrolling -/

section Scrolling

variable (c : Console) (lines : Nat)

/-- Scrolling up ends at the oldest row. -/
theorem scrollHistoryUp_eq : c.scrollHistoryUp lines =
    Console.updateScreen { c with viewStartRow := max (c.viewStartRow - lines) c.oldestRow } := by
  have hmax : ∀ v w : Nat, (if v < w then w else v) = max v w := by
    intro v w
    split <;> omega
  have hsub : (if lines ≤ c.viewStartRow then c.viewStartRow - lines else 0) =
      c.viewStartRow - lines := by
    split <;> omega
  rw [← hsub, ← hmax]
  rfl

/-- Scrolling down ends where the row that is written is the last one on the screen. -/
theorem scrollHistoryDown_eq : c.scrollHistoryDown lines =
    Console.updateScreen { c with
      viewStartRow :=
        min (wrap32 (c.viewStartRow + lines)) (c.absoluteWriteRow - (maxRow - 1)) } := by
  have hmin : ∀ v w : Nat, (if w < v then w else v) = min v w := by
    intro v w
    split <;> omega
  have hsub : (if maxRow - 1 ≤ c.absoluteWriteRow then c.absoluteWriteRow - (maxRow - 1) else 0) =
      c.absoluteWriteRow - (maxRow - 1) := by
    split <;> omega
  rw [← hsub, ← hmin]
  rfl

end Scrolling

/-! ## Runs -/

/-- The console after a row of calls. -/
def Console.run (c : Console) (calls : List Call) : Console := calls.foldl Console.call c

@[simp] theorem run_nil (c : Console) : c.run [] = c := rfl

@[simp] theorem run_cons (c : Console) (call : Call) (calls : List Call) :
    c.run (call :: calls) = (c.call call).run calls := rfl

theorem run_append (c : Console) (calls calls' : List Call) :
    c.run (calls ++ calls') = (c.run calls).run calls' := List.foldl_append

/-- The call scrolls by a number of lines that is not negative, and no row from 2^31 on is
written to. -/
def Call.Fits (c : Console) : Call → Prop
  | .print character => c.consumes character = false → c.nextRow character < 2 ^ 31
  | .up lines => lines < 2 ^ 31
  | .down lines => lines < 2 ^ 31
  | .clear => True

/-- Every call of the run fits. -/
def Fits : Console → List Call → Prop
  | _, [] => True
  | c, call :: calls => call.Fits c ∧ Fits (c.call call) calls

theorem fits_append {calls calls' : List Call} : ∀ {c : Console},
    Fits c (calls ++ calls') → Fits c calls ∧ Fits (c.run calls) calls' := by
  induction calls with
  | nil => exact fun h => ⟨trivial, h⟩
  | cons call calls ih =>
      intro c h
      exact ⟨⟨h.1, (ih h.2).1⟩, (ih h.2).2⟩

instance (c : Console) (call : Call) : Decidable (call.Fits c) :=
  match call with
  | .print _ => inferInstanceAs (Decidable (_ → _))
  | .up _ => inferInstanceAs (Decidable (_ < _))
  | .down _ => inferInstanceAs (Decidable (_ < _))
  | .clear => inferInstanceAs (Decidable True)

instance decidableFits : (c : Console) → (calls : List Call) → Decidable (Fits c calls)
  | _, [] => inferInstanceAs (Decidable True)
  | c, call :: calls => @instDecidableAnd _ _ inferInstance (decidableFits (c.call call) calls)

/-- The row numbers are far from wrapping around. -/
structure InRange (c : Console) : Prop where
  row : c.absoluteWriteRow < 2 ^ 31
  view : c.viewStartRow ≤ 2 ^ 31

section Range

variable {c : Console} {character : UInt8}

@[simp] theorem screen_absoluteWriteRow (c : Console) :
    c.follow.updateScreen.absoluteWriteRow = c.absoluteWriteRow := rfl

theorem row_write (hrow : c.nextRow character < 2 ^ 32) :
    (c.write character).absoluteWriteRow = c.nextRow character := by
  rw [write_eq, screen_absoluteWriteRow, edit_absoluteWriteRow hrow]

/-- The lock of `print_char`. -/
theorem view_write (hview : c.viewStartRow + maxRow < 2 ^ 32)
    (hrow : c.nextRow character < 2 ^ 32) :
    (c.write character).viewStartRow =
      if c.viewStartRow + maxRow ≤ c.nextRow character then c.nextRow character + 1 - maxRow
      else c.viewStartRow := by
  have hwrap : wrap32 (c.viewStartRow + maxRow) = c.viewStartRow + maxRow := Nat.mod_eq_of_lt hview
  rw [write_eq]
  simp only [Console.updateScreen, Console.follow, edit_viewStartRow, edit_absoluteWriteRow hrow,
    hwrap]
  refine if_ctx_congr Iff.rfl (fun hle => ?_) fun _ => rfl
  have hle' : c.viewStartRow + maxRow ≤ c.nextRow character := hle
  show wrap32 (c.nextRow character + 2 ^ 32 - maxRow + 1) = c.nextRow character + 1 - maxRow
  unfold wrap32 maxRow at *
  omega

theorem row_printChar (h : c.consumes character = false) (hrow : c.nextRow character < 2 ^ 32) :
    (c.printChar character).absoluteWriteRow = c.nextRow character := by
  rw [printChar_of_not_consumes h]
  exact row_write (c := { c with ansiState := .idle }) hrow

theorem view_printChar (hview : c.viewStartRow + maxRow < 2 ^ 32)
    (h : c.consumes character = false) (hrow : c.nextRow character < 2 ^ 32) :
    (c.printChar character).viewStartRow =
      if c.viewStartRow + maxRow ≤ c.nextRow character then c.nextRow character + 1 - maxRow
      else c.viewStartRow := by
  rw [printChar_of_not_consumes h]
  exact view_write (c := { c with ansiState := .idle }) hview hrow

theorem inRange_screenClear (c : Console) : InRange c.screenClear :=
  ⟨show 0 < 2 ^ 31 by decide, show 0 ≤ 2 ^ 31 by decide⟩

theorem InRange.call (h : InRange c) {call : Call} (hfits : call.Fits c) :
    InRange (c.call call) := by
  obtain ⟨hrow, hview⟩ := h
  have hold : c.oldestRow ≤ 2 ^ 31 := by
    unfold Console.oldestRow
    split <;> omega
  cases call with
  | print character =>
      by_cases hconsumes : c.consumes character = true
      · obtain ⟨color, state, code, hret⟩ := printChar_of_consumes hconsumes
        rw [Console.call, hret]
        exact ⟨hrow, hview⟩
      · have hproc : c.consumes character = false := by simpa using hconsumes
        have hnext : c.nextRow character < 2 ^ 31 := hfits hproc
        have hmax : c.viewStartRow + maxRow < 2 ^ 32 := by
          unfold maxRow
          omega
        refine ⟨?_, ?_⟩
        · rw [Console.call, row_printChar hproc (by omega)]
          exact hnext
        · rw [Console.call, view_printChar hmax hproc (by omega)]
          split <;> omega
  | up lines =>
      rw [Console.call, scrollHistoryUp_eq]
      exact ⟨hrow, show max (c.viewStartRow - lines) c.oldestRow ≤ 2 ^ 31 by omega⟩
  | down lines =>
      rw [Console.call, scrollHistoryDown_eq]
      exact ⟨hrow, (min_le_right _ _).trans ((Nat.sub_le _ _).trans hrow.le)⟩
  | clear => exact inRange_screenClear c

theorem InRange.run {calls : List Call} : ∀ {c : Console}, InRange c → Fits c calls →
    InRange (c.run calls) := by
  induction calls with
  | nil => exact fun h _ => h
  | cons call calls ih => exact fun h hfits => ih (h.call hfits.1) hfits.2

end Range

/-! ## The row that is written -/

/-- The row that is written is on the screen. -/
def Visible (c : Console) : Prop :=
  c.viewStartRow ≤ c.absoluteWriteRow ∧ c.absoluteWriteRow < c.viewStartRow + maxRow

/-- After a character the row that is written is never below the view. -/
theorem visible_printChar_iff {c : Console} {character : UInt8} (h : InRange c)
    (hproc : c.consumes character = false) (hrow : c.nextRow character < 2 ^ 31) :
    Visible (c.printChar character) ↔ c.viewStartRow ≤ c.nextRow character := by
  have hview := h.view
  have hmax : c.viewStartRow + maxRow < 2 ^ 32 := by
    unfold maxRow
    omega
  unfold Visible
  rw [row_printChar hproc (by omega), view_printChar hmax hproc (by omega)]
  unfold maxRow
  split
  · constructor
    · omega
    · intro _
      constructor <;> omega
  · constructor
    · exact fun h => h.1
    · intro hle
      exact ⟨hle, by omega⟩

/-- **When the row that is typed is visible.**  In every run from `screen_clear`, after
every character that the parser does not take: exactly when the view did not start below the
row to which the character leads. -/
theorem visible_iff (c : Console) {calls : List Call} (h : Fits c.screenClear calls) :
    ∀ before character after, calls = before ++ Call.print character :: after →
      (c.screenClear.run before).consumes character = false →
      (Visible (c.screenClear.run (before ++ [Call.print character])) ↔
        (c.screenClear.run before).viewStartRow ≤
          (c.screenClear.run before).nextRow character) := by
  rintro before character after rfl hproc
  obtain ⟨hbefore, hfits, -⟩ := fits_append h
  rw [run_append]
  exact visible_printChar_iff ((inRange_screenClear c).run hbefore) hproc (hfits hproc)

/-- The ends of 40 rows, and the view five rows up. -/
def scrolledUp : List Call := List.replicate 40 (Call.print 10) ++ [Call.up 5]

/-- A character brings the view back to the row it is written in. -/
theorem visible_iff_scrolled :
    let c : Console := { bootConsole with maxHistoryRows := 50 }
    (c.screenClear.run scrolledUp).viewStartRow = 11 ∧
      Visible (c.screenClear.run (scrolledUp ++ [Call.print 65])) := by
  intro c
  have hiff := visible_iff c
    (show Fits c.screenClear (scrolledUp ++ Call.print 65 :: []) by decide +kernel) scrolledUp 65 []
    rfl (by decide +kernel)
  exact ⟨by decide +kernel, hiff.2 (by decide +kernel)⟩

/-- 25 ends of rows, and 24 of the 25 steps back over them. -/
def backedUp : List Call := List.replicate 25 (Call.print 10) ++ List.replicate 24 (Call.print 8)

/-- Typing goes back over the ends of 25 rows; the view stays behind at row 1. -/
theorem visible_backedUp_false :
    ¬ ∀ (c : Console) (calls : List Call), Fits c.screenClear calls →
      ∀ before character after, calls = before ++ Call.print character :: after →
        (c.screenClear.run before).consumes character = false →
        Visible (c.screenClear.run (before ++ [Call.print character])) := by
  intro h
  have hvisible := h bootConsole (backedUp ++ [Call.print 8]) (by decide +kernel) backedUp 8 [] rfl
    (by decide +kernel)
  have hrow : (bootConsole.screenClear.run (backedUp ++ [Call.print 8])).absoluteWriteRow = 0 := by
    decide +kernel
  have hview : (bootConsole.screenClear.run (backedUp ++ [Call.print 8])).viewStartRow = 1 := by
    decide +kernel
  have hle := hvisible.1
  rw [hrow, hview] at hle
  exact absurd hle (by decide)

end BenmoshOS.Print
