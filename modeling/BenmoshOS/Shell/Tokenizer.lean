import BenmoshOS.Shell.Basic

/-!
# The shell: cutting a command into words

The loop of `execute_command` writes a zero byte over every character between words, and an
entry of `argv` at every character that begins one.  The buffer behind the loop holds the text
with its spaces blanked out (`Blanked`), and there the string at the beginning of a word ends
where the word does.
-/

namespace BenmoshOS.Shell

/-! ## Words -/

/-- The words of a text: its longest pieces without a space. -/
def words (text : List UInt8) : List (List UInt8) :=
  (text.splitOnP isSpace).filter (· ≠ [])

/-- The text up to the first space. -/
def firstPiece (text : List UInt8) : List UInt8 := (text.splitOnP isSpace).headD []

/-- The words behind the first space. -/
def laterWords (text : List UInt8) : List (List UInt8) :=
  (text.splitOnP isSpace).tail.filter (· ≠ [])

section Words

variable {c : UInt8} {text : List UInt8}

theorem splitOnP_space (hc : isSpace c = true) :
    (c :: text).splitOnP isSpace = [] :: text.splitOnP isSpace := by
  rw [List.splitOnP_cons_eq_if_modifyHead, if_pos hc]

theorem splitOnP_char (hc : isSpace c = false) :
    (c :: text).splitOnP isSpace =
      (c :: firstPiece text) :: (text.splitOnP isSpace).tail := by
  rw [List.splitOnP_cons_eq_if_modifyHead, hc]
  unfold firstPiece
  cases hsplit : text.splitOnP isSpace with
  | nil => exact absurd hsplit (List.splitOnP_ne_nil _ _)
  | cons piece rest => rfl

theorem words_space (hc : isSpace c = true) : words (c :: text) = words text := by
  unfold words
  rw [splitOnP_space hc]
  exact List.filter_cons_of_neg (by simp)

theorem words_char (hc : isSpace c = false) :
    words (c :: text) = (c :: firstPiece text) :: laterWords text := by
  unfold words
  rw [splitOnP_char hc]
  exact List.filter_cons_of_pos (by simp)

theorem firstPiece_space (hc : isSpace c = true) : firstPiece (c :: text) = [] := by
  unfold firstPiece
  rw [splitOnP_space hc]
  rfl

theorem firstPiece_char (hc : isSpace c = false) :
    firstPiece (c :: text) = c :: firstPiece text := by
  rw [firstPiece, splitOnP_char hc]
  rfl

theorem laterWords_space (hc : isSpace c = true) : laterWords (c :: text) = words text := by
  unfold laterWords
  rw [splitOnP_space hc]
  rfl

theorem laterWords_char (hc : isSpace c = false) : laterWords (c :: text) = laterWords text := by
  unfold laterWords
  rw [splitOnP_char hc]
  rfl

end Words

/-! ## The buffer behind the loop -/

/-- Where the words of the text at address `p` begin; `inWord` tells whether the text
continues a word. -/
def wordStarts : Bool → Nat → List UInt8 → List Nat
  | _, _, [] => []
  | inWord, p, c :: text =>
      if isSpace c then wordStarts false (p + 1) text
      else if inWord then wordStarts true (p + 1) text
      else p :: wordStarts true (p + 1) text

/-- From address `p` on the buffer holds the text with its spaces blanked out. -/
def Blanked (b : Bytes) : Nat → List UInt8 → Prop
  | p, [] => b p = 0
  | p, c :: text => b p = (if isSpace c then 0 else c) ∧ c ≠ 0 ∧ Blanked b (p + 1) text

/-- There are as many beginnings as words. -/
theorem length_wordStarts (p : Nat) (text : List UInt8) :
    (wordStarts true p text).length = (laterWords text).length ∧
      (wordStarts false p text).length = (words text).length := by
  induction text generalizing p with
  | nil => exact ⟨rfl, rfl⟩
  | cons c text ih =>
      obtain ⟨hlater, hwords⟩ := ih (p + 1)
      cases hc : isSpace c with
      | true =>
          simp only [wordStarts, hc, if_true, laterWords_space, words_space]
          exact ⟨hwords, hwords⟩
      | false =>
          simp only [wordStarts, hc, laterWords_char, words_char]
          exact ⟨hlater, congrArg Nat.succ hlater⟩

/-- The strings at the beginnings of the words are the words. -/
theorem Blanked.words_at {b : Bytes} {p : Nat} {text : List UInt8} (h : Blanked b p text) :
    StringAt b p (firstPiece text) ∧
      List.Forall₂ (StringAt b) (wordStarts true p text) (laterWords text) ∧
      List.Forall₂ (StringAt b) (wordStarts false p text) (words text) := by
  induction text generalizing p with
  | nil => exact ⟨h, .nil, .nil⟩
  | cons c text ih =>
      obtain ⟨hbyte, hne, h⟩ := h
      obtain ⟨hfirst, hlater, hwords⟩ := ih h
      by_cases hc : isSpace c = true
      · rw [if_pos hc] at hbyte
        simp only [wordStarts, hc, if_true, firstPiece_space, laterWords_space, words_space]
        exact ⟨hbyte, hwords, hwords⟩
      · rw [if_neg hc] at hbyte
        rw [Bool.not_eq_true] at hc
        have hword : StringAt b p (c :: firstPiece text) := ⟨hbyte, hne, hfirst⟩
        simp only [wordStarts, hc, firstPiece_char, laterWords_char, words_char]
        exact ⟨hword, hlater, .cons hword hlater⟩

/-! ## The loop -/

section Loop

variable {t : Tokens} {room i : Nat}

theorem tokenizeFrom_end (h : t.command i = 0) : tokenizeFrom (room + 1) i t = .done t := if_pos h

theorem tokenizeFrom_space (hne : t.command i ≠ 0) (hspace : isSpace (t.command i) = true) :
    tokenizeFrom (room + 1) i t = tokenizeFrom room (i + 1)
      { t with command := Function.update t.command i 0, inWord := false } := by
  rw [tokenizeFrom, if_neg hne, if_pos hspace]

theorem tokenizeFrom_start (hne : t.command i ≠ 0) (hspace : isSpace (t.command i) = false)
    (hword : t.inWord = false) :
    tokenizeFrom (room + 1) i t = if maxArgs - 1 ≤ t.argc then .tooMany
      else tokenizeFrom room (i + 1)
        { t with inWord := true, argv := Function.update t.argv t.argc i, argc := t.argc + 1 } := by
  rw [tokenizeFrom, if_neg hne, hspace, if_pos hword]
  rfl

theorem tokenizeFrom_inside (hne : t.command i ≠ 0) (hspace : isSpace (t.command i) = false)
    (hword : t.inWord = true) : tokenizeFrom (room + 1) i t = tokenizeFrom room (i + 1) t := by
  rw [tokenizeFrom, if_neg hne, hspace, hword]
  rfl

theorem wordStarts_space {c : UInt8} {text : List UInt8} (inWord : Bool)
    (hc : isSpace c = true) : wordStarts inWord i (c :: text) = wordStarts false (i + 1) text :=
  if_pos hc

theorem wordStarts_start {c : UInt8} {text : List UInt8} (hc : isSpace c = false) :
    wordStarts false i (c :: text) = i :: wordStarts true (i + 1) text := by
  rw [wordStarts, hc]
  rfl

theorem wordStarts_inside {c : UInt8} {text : List UInt8} (hc : isSpace c = false) :
    wordStarts true i (c :: text) = wordStarts true (i + 1) text := by
  rw [wordStarts, hc]
  rfl

/-- The loop has come from `t` at index `i` over the text to `t'`. -/
structure Scanned (t t' : Tokens) (i : Nat) (text : List UInt8) : Prop where
  argc : t'.argc = t.argc + (wordStarts t.inWord i text).length
  old : ∀ k < t.argc, t'.argv k = t.argv k
  new : ∀ k p, (wordStarts t.inWord i text)[k]? = some p → t'.argv (t.argc + k) = some p
  blanked : Blanked t'.command i text
  before : ∀ j < i, t'.command j = t.command j

section Steps

variable {t' : Tokens} {c : UInt8} {text : List UInt8}

theorem Scanned.space (hc : c ≠ 0) (hspace : isSpace c = true)
    (h : Scanned { t with command := Function.update t.command i 0, inWord := false } t' (i + 1)
      text) : Scanned t t' i (c :: text) := by
  obtain ⟨hargc, hold, hnew, hblanked, hbefore⟩ := h
  refine ⟨?_, hold, ?_, ⟨?_, hc, hblanked⟩, fun j hj => ?_⟩
  · rw [wordStarts_space _ hspace]
    exact hargc
  · rw [wordStarts_space _ hspace]
    exact hnew
  · rw [hbefore i (Nat.lt_succ_self i), if_pos hspace]
    exact Function.update_self i 0 t.command
  · rw [hbefore j (Nat.lt_succ_of_lt hj)]
    exact Function.update_of_ne (Nat.ne_of_lt hj) 0 t.command

theorem Scanned.start (hc : c ≠ 0) (hspace : isSpace c = false) (hbyte : t.command i = c)
    (hword : t.inWord = false)
    (h : Scanned
      { t with inWord := true, argv := Function.update t.argv t.argc i, argc := t.argc + 1 } t'
      (i + 1) text) : Scanned t t' i (c :: text) := by
  obtain ⟨hargc, hold, hnew, hblanked, hbefore⟩ := h
  have hstarts : wordStarts t.inWord i (c :: text) = i :: wordStarts true (i + 1) text := by
    rw [hword, wordStarts_start hspace]
  refine ⟨?_, fun k hk => ?_, fun k p hk => ?_, ⟨?_, hc, hblanked⟩, fun j hj => ?_⟩
  · rw [hstarts, List.length_cons, Nat.add_comm _ 1, ← Nat.add_assoc]
    exact hargc
  · rw [hold k (Nat.lt_succ_of_lt hk)]
    exact Function.update_of_ne (Nat.ne_of_lt hk) _ t.argv
  · rw [hstarts] at hk
    cases k with
    | zero =>
        obtain rfl : i = p := Option.some.inj hk
        rw [Nat.add_zero, hold t.argc (Nat.lt_succ_self _)]
        exact Function.update_self t.argc _ t.argv
    | succ k =>
        rw [Nat.add_comm k 1, ← Nat.add_assoc]
        exact hnew k p hk
  · rw [hbefore i (Nat.lt_succ_self i), hspace]
    exact hbyte
  · exact hbefore j (Nat.lt_succ_of_lt hj)

theorem Scanned.inside (hc : c ≠ 0) (hspace : isSpace c = false) (hbyte : t.command i = c)
    (hword : t.inWord = true) (h : Scanned t t' (i + 1) text) : Scanned t t' i (c :: text) := by
  obtain ⟨hargc, hold, hnew, hblanked, hbefore⟩ := h
  have hstarts : wordStarts t.inWord i (c :: text) = wordStarts t.inWord (i + 1) text := by
    rw [hword, wordStarts_inside hspace]
  refine ⟨?_, hold, ?_, ⟨?_, hc, hblanked⟩, fun j hj => hbefore j (Nat.lt_succ_of_lt hj)⟩
  · rw [hstarts]
    exact hargc
  · rw [hstarts]
    exact hnew
  · rw [hbefore i (Nat.lt_succ_self i), hspace]
    exact hbyte

end Steps

/-- Blanking out a character leaves the text behind it. -/
theorem stringAt_behind {b : Bytes} {text : List UInt8} (h : StringAt b (i + 1) text) :
    StringAt (Function.update b i 0) (i + 1) text :=
  h.congr fun _ hj _ => Function.update_of_ne (Nat.ne_of_gt hj) 0 b

/-- **The loop** when `argv` has room for the words. -/
theorem tokenizeFrom_done {text : List UInt8} (hstr : StringAt t.command i text)
    (hroom : text.length < room)
    (hargc : t.argc + (wordStarts t.inWord i text).length < maxArgs) :
    ∃ t', tokenizeFrom room i t = .done t' ∧ Scanned t t' i text := by
  induction text generalizing i room t with
  | nil =>
      obtain ⟨room, rfl⟩ := Nat.exists_eq_add_one_of_ne_zero (Nat.ne_zero_of_lt hroom)
      have hnone : ∀ k p, (wordStarts t.inWord i [])[k]? = some p → t.argv (t.argc + k) = some p :=
        fun k p hk => by simp [wordStarts] at hk
      exact ⟨t, tokenizeFrom_end hstr, rfl, fun _ _ => rfl, hnone, hstr, fun _ _ => rfl⟩
  | cons c text ih =>
      obtain ⟨room, rfl⟩ := Nat.exists_eq_add_one_of_ne_zero (Nat.ne_zero_of_lt hroom)
      obtain ⟨rfl, hne, hstr⟩ := hstr
      have hroom := Nat.lt_of_succ_lt_succ hroom
      cases hspace : isSpace (t.command i) with
      | true =>
          rw [wordStarts_space _ hspace] at hargc
          rw [tokenizeFrom_space hne hspace]
          have hstr : StringAt (Function.update t.command i 0) (i + 1) text := stringAt_behind hstr
          obtain ⟨t', hscan, hscanned⟩ :=
            ih (t := ⟨Function.update t.command i 0, t.argv, t.argc, false⟩) hstr hroom hargc
          exact ⟨t', hscan, hscanned.space hne hspace⟩
      | false =>
          cases hword : t.inWord with
          | false =>
              rw [hword, wordStarts_start hspace, List.length_cons] at hargc
              rw [tokenizeFrom_start hne hspace hword, if_neg (by omega)]
              obtain ⟨t', hscan, hscanned⟩ :=
                ih (t := ⟨t.command, Function.update t.argv t.argc i, t.argc + 1, true⟩) hstr hroom
                  (show t.argc + 1 + (wordStarts true (i + 1) text).length < maxArgs by omega)
              exact ⟨t', hscan, hscanned.start hne hspace rfl hword⟩
          | true =>
              rw [hword, wordStarts_inside hspace] at hargc
              rw [tokenizeFrom_inside hne hspace hword]
              obtain ⟨t', hscan, hscanned⟩ := ih hstr hroom (by rwa [hword])
              exact ⟨t', hscan, hscanned.inside hne hspace rfl hword⟩

/-- **The loop** when there are too many words. -/
theorem tokenizeFrom_tooMany {text : List UInt8} (hstr : StringAt t.command i text)
    (hroom : text.length < room) (hlt : t.argc < maxArgs)
    (hargc : maxArgs ≤ t.argc + (wordStarts t.inWord i text).length) :
    tokenizeFrom room i t = .tooMany := by
  induction text generalizing i room t with
  | nil =>
      have hle : maxArgs ≤ t.argc := hargc
      exact absurd hle (Nat.not_le.2 hlt)
  | cons c text ih =>
      obtain ⟨room, rfl⟩ := Nat.exists_eq_add_one_of_ne_zero (Nat.ne_zero_of_lt hroom)
      obtain ⟨rfl, hne, hstr⟩ := hstr
      have hroom := Nat.lt_of_succ_lt_succ hroom
      cases hspace : isSpace (t.command i) with
      | true =>
          rw [wordStarts_space _ hspace] at hargc
          rw [tokenizeFrom_space hne hspace]
          have hstr : StringAt (Function.update t.command i 0) (i + 1) text := stringAt_behind hstr
          exact ih (t := ⟨Function.update t.command i 0, t.argv, t.argc, false⟩) hstr hroom hlt
            hargc
      | false =>
          cases hword : t.inWord with
          | false =>
              rw [hword, wordStarts_start hspace, List.length_cons] at hargc
              rw [tokenizeFrom_start hne hspace hword]
              by_cases hfull : maxArgs - 1 ≤ t.argc
              · exact if_pos hfull
              · rw [if_neg hfull]
                exact ih (t := ⟨t.command, Function.update t.argv t.argc i, t.argc + 1, true⟩) hstr
                  hroom (show t.argc + 1 < maxArgs by omega)
                  (show maxArgs ≤ t.argc + 1 + (wordStarts true (i + 1) text).length by omega)
          | true =>
              rw [hword, wordStarts_inside hspace] at hargc
              rw [tokenizeFrom_inside hne hspace hword]
              exact ih hstr hroom hlt (by rwa [hword])

end Loop

/-! ## `execute_command` -/

section Command

variable {command : Bytes} {text : List UInt8} {size : Nat}

/-- The arguments that a command receives. -/
structure Arguments (t : Tokens) (args : List (List UInt8)) : Prop where
  argc : t.argc = args.length
  arg : ∀ i (hi : i < args.length), ∃ p, t.argv i = some p ∧ StringAt t.command p args[i]
  last : t.argv t.argc = none
  inside : t.argc < maxArgs

theorem tokenize_done (env : Env) (hstr : StringAt command 0 text) (hsize : text.length < size)
    (hwords : (words text).length < maxArgs) :
    ∃ t, tokenize env size command = .done t ∧ Arguments t (words text) := by
  have hlength := (length_wordStarts 0 text).2
  obtain ⟨t, hscan, hscanned⟩ : ∃ t, tokenizeFrom size 0 ⟨command, env.argv, 0, false⟩ = .done t ∧
      Scanned ⟨command, env.argv, 0, false⟩ t 0 text :=
    tokenizeFrom_done hstr hsize (by rwa [Nat.zero_add, hlength])
  have hargc : t.argc = (words text).length := by
    rw [hscanned.argc, Nat.zero_add, hlength]
  have hat := hscanned.blanked.words_at.2.2
  refine ⟨{ t with argv := Function.update t.argv t.argc none }, ?_, hargc, fun i hi => ?_,
    Function.update_self t.argc none t.argv, hargc ▸ hwords⟩
  · unfold tokenize
    rw [hscan]
  · -- the entry was written when the loop came to the beginning of the word
    have hi' : i < (wordStarts false 0 text).length := by rwa [hlength]
    have hnew := hscanned.new i _ (List.getElem?_eq_getElem hi')
    rw [Nat.zero_add] at hnew
    refine ⟨_, ?_, hat.get hi' hi⟩
    show Function.update t.argv t.argc none i = _
    rw [Function.update_of_ne (by omega)]
    exact hnew

theorem tokenize_tooMany (env : Env) (hstr : StringAt command 0 text)
    (hsize : text.length < size) (hwords : maxArgs ≤ (words text).length) :
    tokenize env size command = .tooMany := by
  have hscan : tokenizeFrom size 0 ⟨command, env.argv, 0, false⟩ = .tooMany :=
    tokenizeFrom_tooMany hstr hsize (show 0 < maxArgs by decide)
      (by rwa [Nat.zero_add, (length_wordStarts 0 text).2])
  unfold tokenize
  rw [hscan]

/-- `execute_command` stays within the buffer. -/
theorem executeCommand_returns (env : Env) (hstr : StringAt command 0 text)
    (hsize : text.length < size) (console : Print.Console) :
    ∃ console', executeCommand env size (some command) console = some console' := by
  rcases Nat.lt_or_ge (words text).length maxArgs with hlt | hge
  · obtain ⟨t, htokens, -⟩ := tokenize_done env hstr hsize hlt
    simp only [executeCommand, htokens]
    split
    · exact ⟨_, rfl⟩
    · exact ⟨_, rfl⟩
  · simp only [executeCommand, tokenize_tooMany env hstr hsize hge]
    exact ⟨_, rfl⟩

/-- **The tokenizer.**  A command of at most 31 words is cut into its words, and a command of
more words is rejected whatever the commands do. -/
theorem tokenizer (env : Env) (hstr : StringAt command 0 text) (hsize : text.length < size)
    (console : Print.Console) :
    ((words text).length ≤ 31 → ∃ t, tokenize env size command = .done t ∧
      Arguments t (words text) ∧
      executeCommand env size (some command) console =
        if words text = [] then some console
        else some (env.dispatch t.argv t.argc t.command console)) ∧
    (31 < (words text).length → executeCommand env size (some command) console =
      some (console.puts (ascii "shell: too many arguments\n"))) := by
  constructor
  · intro hwords
    obtain ⟨t, htokens, hargs⟩ := tokenize_done env hstr hsize (Nat.lt_succ_of_le hwords)
    refine ⟨t, htokens, hargs, ?_⟩
    simp only [executeCommand, htokens]
    exact if_congr (by rw [hargs.argc, List.length_eq_zero_iff]) rfl rfl
  · intro hwords
    simp only [executeCommand, tokenize_tooMany env hstr hsize hwords]

end Command

/-- A command with spaces in front of, between and behind its two words. -/
theorem tokenizer_twoWords :
    let command : Bytes := fun i => [32, 97, 98, 9, 32, 99, 10].getD i 0
    let env : Env := ⟨fun _ _ _ c => c, fun _ => some 7, fun _ => 1⟩
    ∃ t, tokenize env 8 command = .done t ∧ Arguments t [[97, 98], [99]] := by
  intro command env
  have hstr : StringAt command 0 [32, 97, 98, 9, 32, 99, 10] := by
    simp [StringAt, command]
  obtain ⟨t, htokens, hargs, -⟩ :=
    (tokenizer env hstr (by decide : 7 < 8) Print.bootConsole).1 (by decide)
  exact ⟨t, htokens, hargs⟩

end BenmoshOS.Shell
