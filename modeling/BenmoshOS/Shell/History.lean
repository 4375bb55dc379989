import BenmoshOS.Shell.Basic

/-!
# The shell: what the history holds

`history_save` moves 256 rows down by one and puts the new line into row 0.  The rows hold the
newest lines that were kept, where an empty line and a repetition of the last kept line are
not kept (`remember`); rows that have not been used yet hold the empty string.
-/

namespace BenmoshOS.Shell

open Klib

/-- The kept lines, newest first, after a line is submitted. -/
def remember (kept : List (List UInt8)) (line : List UInt8) : List (List UInt8) :=
  if line = [] ∨ kept.head? = some line then kept else line :: kept

/-- The rows hold the newest of the kept lines. -/
structure Keeps (s : State) (kept : List (List UInt8)) : Prop where
  count : s.historyCount = min maxHistory kept.length
  row : ∀ i < maxHistory, StringAt (s.history i) 0 (kept.getD i [])
  short : ∀ line ∈ kept, line.length < maxLineLength

section Rows

variable {s : State} {kept : List (List UInt8)} {line : List UInt8} {cmd : Bytes}

theorem keeps_init (console : Print.Console) : Keeps (State.init console) [] where
  count := rfl
  row _ _ := rfl
  short _ hline := absurd hline List.not_mem_nil

/-- `Keeps` is about the history alone. -/
theorem Keeps.of_eq {s' : State} (h : Keeps s kept) (hcount : s'.historyCount = s.historyCount)
    (hrow : s'.history = s.history) : Keeps s' kept where
  count := hcount.trans h.count
  row := by
    rw [hrow]
    exact h.row
  short := h.short

theorem Keeps.short_getD (h : Keeps s kept) (i : Nat) :
    (kept.getD i []).length < maxLineLength := by
  rw [List.getD_eq_getElem?_getD]
  cases hget : kept[i]? with
  | none => exact show 0 < maxLineLength by decide
  | some line => exact h.short line (List.mem_of_getElem? hget)

/-- **The shift.**  The rows from 1 to `n` receive the strings of the rows from 0 to `n - 1`. -/
theorem shiftDown_eq {history : Nat → Bytes} {str : Nat → List UInt8} (n : Nat)
    (hrow : ∀ i < n, StringAt (history i) 0 (str i))
    (hshort : ∀ i < n, (str i).length < maxLineLength) :
    ∃ history', shiftDown n history = some history' ∧
      (∀ i < n, StringAt (history' (i + 1)) 0 (str i)) ∧
      ∀ j, n < j → history' j = history j := by
  induction n generalizing history with
  | zero => exact ⟨history, rfl, fun i hi => absurd hi (Nat.not_lt_zero i), fun _ _ => rfl⟩
  | succ n ih =>
      obtain ⟨row, hcopy, hstr⟩ := strcpy_eq (history (n + 1))
        (hrow n (Nat.lt_succ_self n)) (hshort n (Nat.lt_succ_self n))
      -- the rows below `n + 1` are still what they were
      have hrow' : ∀ i < n, StringAt (Function.update history (n + 1) row i) 0 (str i) := by
        intro i hi
        rw [Function.update_of_ne (by omega)]
        exact hrow i (Nat.lt_succ_of_lt hi)
      obtain ⟨history', hshift, hmoved, hrest⟩ :=
        ih hrow' fun i hi => hshort i (Nat.lt_succ_of_lt hi)
      refine ⟨history', ?_, fun i hi => ?_, fun j hj => ?_⟩
      · rw [shiftDown, hcopy, Option.bind_some]
        exact hshift
      · rcases Nat.lt_succ_iff_lt_or_eq.1 hi with hlt | rfl
        · exact hmoved i hlt
        · rw [hrest _ (Nat.lt_succ_self _), Function.update_self]
          exact hstr
      · rw [hrest j (by omega), Function.update_of_ne (by omega)]

/-- The comparison with the last line. -/
theorem Keeps.repeatsLast_eq (h : Keeps s kept) (hcmd : StringAt cmd 0 line)
    (hne : line ≠ []) :
    s.repeatsLast cmd = some (decide (line = [] ∨ kept.head? = some line)) := by
  unfold State.repeatsLast
  have hcount := h.count
  cases kept with
  | nil =>
      have hzero : ¬ 0 < s.historyCount := by
        rw [hcount]
        exact Nat.lt_irrefl 0
      rw [if_neg hzero]
      simp [hne]
  | cons last rest =>
      have hpos : 0 < s.historyCount := by
        rw [hcount]
        exact Nat.lt_min.2 ⟨by decide, Nat.succ_pos _⟩
      have hlast : StringAt (s.history 0) 0 last := h.row 0 (by decide)
      obtain ⟨d, hcmp, hiff⟩ := strcmp_eq hlast hcmd (h.short last List.mem_cons_self)
      rw [if_pos hpos, hcmp, Option.map_some]
      simp [hiff, hne]

/-- The new row 0. -/
theorem newRow_stringAt {dest : Bytes} (hcmd : StringAt cmd 0 line)
    (hshort : line.length < maxLineLength) :
    StringAt (Function.update (strncpy dest cmd (maxLineLength - 1)) (maxLineLength - 1) 0)
      0 line := by
  have hle : line.length ≤ maxLineLength - 1 := Nat.le_sub_one_of_lt hshort
  refine hcmd.congr fun i _ hi => ?_
  rw [Nat.zero_add] at hi
  have hend := hcmd.terminator
  rw [Nat.zero_add] at hend
  rcases Nat.lt_or_ge i (maxLineLength - 1) with hlt | hge
  · rw [Function.update_of_ne (Nat.ne_of_lt hlt), strncpy_apply hcmd hle, if_pos hlt]
    rcases Nat.lt_or_ge i line.length with hin | hout
    · rw [if_pos hin]
    · rw [if_neg (Nat.not_lt.2 hout), Nat.le_antisymm hi hout, hend]
  · -- a line of 255 characters, whose zero byte is written behind the copy
    obtain rfl : i = maxLineLength - 1 := Nat.le_antisymm (hi.trans hle) hge
    rw [Function.update_self, Nat.le_antisymm hle hi |>.symm, hend]

theorem remember_of_skip (hskip : line = [] ∨ kept.head? = some line) :
    remember kept line = kept := if_pos hskip

theorem remember_of_new (hnew : ¬ (line = [] ∨ kept.head? = some line)) :
    remember kept line = line :: kept := if_neg hnew

/-- The number of rows in use. -/
theorem count_cons {count : Nat} (line : List UInt8) (h : count = min maxHistory kept.length) :
    (if count < maxHistory then count + 1 else count) =
      min maxHistory (line :: kept).length := by
  rw [List.length_cons]
  split <;> omega

/-- The rows behind the shift. -/
theorem insert_row {history : Nat → Bytes} {row : Bytes} (hnew : StringAt row 0 line)
    (hmoved : ∀ i < maxHistory - 1, StringAt (history (i + 1)) 0 (kept.getD i [])) :
    ∀ i < maxHistory,
      StringAt (Function.update history 0 row i) 0 ((line :: kept).getD i []) := by
  intro i hi
  cases i with
  | zero =>
      rw [Function.update_self]
      exact hnew
  | succ i =>
      rw [Function.update_of_ne (Nat.succ_ne_zero i)]
      exact hmoved i (Nat.lt_sub_of_add_lt hi)

theorem historySave_of_repeats (hfirst : cmd 0 ≠ 0) (h : s.repeatsLast cmd = some true) :
    s.historySave (some cmd) = some s := by
  show (if cmd 0 = 0 then some s else (s.repeatsLast cmd).bind _) = some s
  rw [if_neg hfirst, h]
  rfl

theorem historySave_of_new {history : Nat → Bytes} (hfirst : cmd 0 ≠ 0)
    (h : s.repeatsLast cmd = some false)
    (hshift : shiftDown (maxHistory - 1) s.history = some history) :
    s.historySave (some cmd) = some
      { s with
        history := Function.update history 0 (Function.update
          (strncpy (history 0) cmd (maxLineLength - 1)) (maxLineLength - 1) 0)
        historyCount :=
          if s.historyCount < maxHistory then s.historyCount + 1 else s.historyCount } := by
  show (if cmd 0 = 0 then some s else (s.repeatsLast cmd).bind _) = _
  rw [if_neg hfirst, h]
  show (shiftDown (maxHistory - 1) s.history).map _ = _
  rw [hshift]
  rfl

/-- **`history_save`** keeps the line. -/
theorem Keeps.historySave (h : Keeps s kept) (hcmd : StringAt cmd 0 line)
    (hshort : line.length < maxLineLength) :
    ∃ history count, s.historySave (some cmd) =
        some { s with history := history, historyCount := count } ∧
      Keeps { s with history := history, historyCount := count } (remember kept line) := by
  by_cases hnil : line = []
  · subst hnil
    rw [remember_of_skip (Or.inl rfl)]
    exact ⟨_, _, if_pos hcmd, h⟩
  have hfirst : cmd 0 ≠ 0 := by
    cases line with
    | nil => exact absurd rfl hnil
    | cons c rest =>
        rw [hcmd.1]
        exact hcmd.2.1
  have hrepeats := h.repeatsLast_eq hcmd hnil
  by_cases hskip : line = [] ∨ kept.head? = some line
  · rw [remember_of_skip hskip]
    rw [decide_eq_true hskip] at hrepeats
    exact ⟨_, _, historySave_of_repeats hfirst hrepeats, h⟩
  · rw [remember_of_new hskip]
    rw [decide_eq_false hskip] at hrepeats
    obtain ⟨history, hshift, hmoved, -⟩ := shiftDown_eq (maxHistory - 1)
      (fun i hi => h.row i (by omega)) fun i _ => h.short_getD i
    exact ⟨_, _, historySave_of_new hfirst hrepeats hshift, count_cons line h.count,
      insert_row (newRow_stringAt hcmd hshort) hmoved, List.forall_mem_cons.2 ⟨hshort, h.short⟩⟩

end Rows

/-! ## A sequence of lines -/

/-- `history_save` for one line after the other. -/
def State.historySaves (s : State) (cmds : List Bytes) : Option State :=
  cmds.foldlM (fun s cmd => s.historySave (some cmd)) s

theorem Keeps.historySaves {s : State} {kept : List (List UInt8)} {cmds : List Bytes}
    {lines : List (List UInt8)} (h : Keeps s kept)
    (hcmds : List.Forall₂ (fun cmd line => StringAt cmd 0 line) cmds lines)
    (hshort : ∀ line ∈ lines, line.length < maxLineLength) :
    ∃ s', s.historySaves cmds = some s' ∧ Keeps s' (lines.foldl remember kept) := by
  induction hcmds generalizing s kept with
  | nil => exact ⟨s, rfl, h⟩
  | cons hcmd _ ih =>
      obtain ⟨hline, hrest⟩ := List.forall_mem_cons.1 hshort
      obtain ⟨history, count, hsave, hkeeps⟩ := h.historySave hcmd hline
      obtain ⟨s', hsaves, hkeeps'⟩ := ih hkeeps hrest
      refine ⟨s', ?_, hkeeps'⟩
      unfold State.historySaves
      rw [List.foldlM_cons, hsave]
      exact hsaves

/-- **What the history holds** after a sequence of lines: the newest of the kept lines. -/
theorem history_contents (console : Print.Console) {cmds : List Bytes}
    {lines : List (List UInt8)}
    (hcmds : List.Forall₂ (fun cmd line => StringAt cmd 0 line) cmds lines)
    (hshort : ∀ line ∈ lines, line.length ≤ 255) :
    ∃ s, (State.init console).historySaves cmds = some s ∧
      s.historyCount = min 256 (lines.foldl remember []).length ∧
      ∀ i < s.historyCount, ∃ line, (lines.foldl remember [])[i]? = some line ∧
        StringAt (s.history i) 0 line := by
  obtain ⟨s, hsaves, hkeeps⟩ :=
    (keeps_init console).historySaves hcmds fun line hline => Nat.lt_succ_of_le (hshort line hline)
  refine ⟨s, hsaves, hkeeps.count, fun i hi => ?_⟩
  have hmin : i < min maxHistory (lines.foldl remember []).length := hkeeps.count ▸ hi
  obtain ⟨hrow, hlen⟩ := Nat.lt_min.1 hmin
  refine ⟨_, List.getElem?_eq_getElem hlen, ?_⟩
  have hstr := hkeeps.row i hrow
  rwa [List.getD_eq_getElem?_getD, List.getElem?_eq_getElem hlen] at hstr

/-- A line, an empty line, the same line again and a second line. -/
theorem history_contents_four :
    let line (c : UInt8) : Bytes := fun i => if i = 0 then c else 0
    ∃ s, (State.init Print.bootConsole).historySaves [line 97, line 0, line 97, line 98] = some s ∧
      s.historyCount = 2 ∧
      ∀ i < s.historyCount, ∃ str, [[98], [97]][i]? = some str ∧
        StringAt (s.history i) 0 str := by
  intro line
  have hcmds : List.Forall₂ (fun cmd line => StringAt cmd 0 line)
      [line 97, line 0, line 97, line 98] [[97], [], [97], [98]] :=
    .cons ⟨rfl, by decide, rfl⟩ (.cons rfl (.cons ⟨rfl, by decide, rfl⟩
      (.cons ⟨rfl, by decide, rfl⟩ .nil)))
  exact history_contents Print.bootConsole hcmds (by decide)

end BenmoshOS.Shell
