import BenmoshOS.Keyboard.Basic

/-!
# The modifier flags and the keys that are held

A key is named by its make code, the break code is the make code with bit 7 set.  `Alternates`
says of a sequence of scancodes that every key in it is pressed and released in turn, and
`heldAfter` which keys are held at its end.

Both shift keys set and clear one flag, so the release of one of them clears the flag while
the other may still be held.  `modifiers_track_iff` says that nothing else makes the flags
differ from the keys.
-/

namespace BenmoshOS.Keyboard

open Print (Console)

/-! ## The keys -/

/-- A scancode that tells of a release. -/
def IsBreak (scancode : UInt8) : Prop := scancode &&& 0x80 ≠ 0

instance (scancode : UInt8) : Decidable (IsBreak scancode) := by
  unfold IsBreak
  infer_instance

/-- The key of a break code. -/
def keyReleased (scancode : UInt8) : UInt8 := scancode &&& 0x7F

/-- The keys held after one more scancode. -/
def heldNext (held : UInt8 → Bool) (scancode : UInt8) : UInt8 → Bool :=
  if IsBreak scancode then Function.update held (keyReleased scancode) false
  else Function.update held scancode true

/-- The keys held after a sequence of scancodes. -/
def heldAfter (scancodes : List UInt8) : UInt8 → Bool :=
  scancodes.foldl heldNext fun _ => false

/-- A scancode that can come while the keys `held` are held: only a key that is held is
released, and only a key that is not held is pressed. -/
def Possible (held : UInt8 → Bool) (scancode : UInt8) : Prop :=
  if IsBreak scancode then held (keyReleased scancode) = true else held scancode = false

instance (held : UInt8 → Bool) (scancode : UInt8) : Decidable (Possible held scancode) := by
  unfold Possible
  infer_instance

/-- Every key is pressed and released in turn, from the keys `held` on. -/
def Alternates (held : UInt8 → Bool) : List UInt8 → Prop
  | [] => True
  | scancode :: scancodes => Possible held scancode ∧ Alternates (heldNext held scancode) scancodes

/-- The driver after a sequence of scancodes. -/
def afterKeys (console : Console) (scancodes : List UInt8) : State :=
  scancodes.foldl (fun s scancode => keyboardHandler scancode s) (boot console)

/-- One of the shift keys is held. -/
def ShiftHeld (held : UInt8 → Bool) : Prop := held leftShift = true ∨ held rightShift = true

instance (held : UInt8 → Bool) : Decidable (ShiftHeld held) := by
  unfold ShiftHeld
  infer_instance

/-- The make codes of the letters. -/
def IsLetter (scancode : UInt8) : Prop :=
  (16 ≤ scancode ∧ scancode ≤ 25) ∨ (30 ≤ scancode ∧ scancode ≤ 38) ∨
    (44 ≤ scancode ∧ scancode ≤ 50)

/-- What a letter key means while some keys are held: control and C make a character of their
own. -/
def letterOf (held : UInt8 → Bool) (scancode : UInt8) : UInt8 :=
  if held control = true ∧ scancode = 0x2E then 3
  else if ShiftHeld held then scancodeMapShifted scancode
  else scancodeMapNormal scancode

/-- The flags are those of the keys held, and the letters are translated accordingly. -/
structure Tracks (s : State) (held : UInt8 → Bool) : Prop where
  shift : s.shiftPressed = 1 ↔ ShiftHeld held
  ctrl : s.ctrlPressed = 1 ↔ held control = true
  letters : ∀ scancode, IsLetter scancode → toAscii s scancode = letterOf held scancode

/-- The release of one shift key while the other one is held. -/
def ReleasesOneOfTwo (held : UInt8 → Bool) (scancode : UInt8) : Prop :=
  IsBreak scancode ∧
    (keyReleased scancode = leftShift ∧ held rightShift = true ∨
      keyReleased scancode = rightShift ∧ held leftShift = true)

/-! ## One scancode -/

section Flags

variable {s : State} {held : UInt8 → Bool} {scancode : UInt8}

/-- The flags have one of two values. -/
def FlagsBinary (s : State) : Prop :=
  (s.shiftPressed = 0 ∨ s.shiftPressed = 1) ∧ (s.ctrlPressed = 0 ∨ s.ctrlPressed = 1)

theorem enqueue_shiftPressed (s : State) (c : UInt8) :
    (enqueue s c).shiftPressed = s.shiftPressed := by
  unfold enqueue
  split
  · split
    · rfl
    · rfl
  · rfl

theorem enqueue_ctrlPressed (s : State) (c : UInt8) :
    (enqueue s c).ctrlPressed = s.ctrlPressed := by
  unfold enqueue
  split
  · split
    · rfl
    · rfl
  · rfl

theorem keyboardHandler_of_break (hb : IsBreak scancode) :
    keyboardHandler scancode s =
      if keyReleased scancode = leftShift ∨ keyReleased scancode = rightShift then
        { s with shiftPressed := 0 }
      else if keyReleased scancode = control then { s with ctrlPressed := 0 }
      else s := if_pos hb

theorem keyboardHandler_of_make (hb : ¬ IsBreak scancode) :
    keyboardHandler scancode s =
      if scancode = leftShift ∨ scancode = rightShift then { s with shiftPressed := 1 }
      else if scancode = control then { s with ctrlPressed := 1 }
      else if scancode = 0x49 then { s with console := s.console.scrollHistoryUp 5 }
      else if scancode = 0x51 then { s with console := s.console.scrollHistoryDown 5 }
      else enqueue s (toAscii s scancode) := if_neg hb

/-- What a scancode does to the shift flag. -/
theorem keyboardHandler_shiftPressed (scancode : UInt8) (s : State) :
    (keyboardHandler scancode s).shiftPressed =
      if IsBreak scancode then
        if keyReleased scancode = leftShift ∨ keyReleased scancode = rightShift then 0
        else s.shiftPressed
      else if scancode = leftShift ∨ scancode = rightShift then 1
      else s.shiftPressed := by
  by_cases hb : IsBreak scancode
  · rw [keyboardHandler_of_break hb, if_pos hb]
    simp only [apply_ite State.shiftPressed, ite_self]
  · rw [keyboardHandler_of_make hb, if_neg hb]
    simp only [apply_ite State.shiftPressed, enqueue_shiftPressed, ite_self]

theorem control_not_shift : ¬ (control = leftShift ∨ control = rightShift) := by decide

/-- What a scancode does to the control flag. -/
theorem keyboardHandler_ctrlPressed (scancode : UInt8) (s : State) :
    (keyboardHandler scancode s).ctrlPressed =
      if IsBreak scancode then
        if keyReleased scancode = control then 0 else s.ctrlPressed
      else if scancode = control then 1
      else s.ctrlPressed := by
  by_cases hb : IsBreak scancode
  · rw [keyboardHandler_of_break hb, if_pos hb]
    by_cases hctrl : keyReleased scancode = control
    · rw [if_pos hctrl, if_pos hctrl, hctrl, if_neg control_not_shift]
    · rw [if_neg hctrl, if_neg hctrl]
      simp only [apply_ite State.ctrlPressed, ite_self]
  · rw [keyboardHandler_of_make hb, if_neg hb]
    by_cases hctrl : scancode = control
    · rw [if_pos hctrl, if_pos hctrl, hctrl, if_neg control_not_shift]
    · rw [if_neg hctrl, if_neg hctrl]
      simp only [apply_ite State.ctrlPressed, enqueue_ctrlPressed, ite_self]

theorem FlagsBinary.handler (h : FlagsBinary s) (scancode : UInt8) :
    FlagsBinary (keyboardHandler scancode s) := by
  obtain ⟨hshift, hctrl⟩ := h
  constructor
  · rw [keyboardHandler_shiftPressed]
    split_ifs
    · exact Or.inl rfl
    · exact hshift
    · exact Or.inr rfl
    · exact hshift
  · rw [keyboardHandler_ctrlPressed]
    split_ifs
    · exact Or.inl rfl
    · exact hctrl
    · exact Or.inr rfl
    · exact hctrl

/-- A scancode keeps the shift flag true to the keys unless it releases one of two. -/
theorem shift_handler (h : s.shiftPressed = 1 ↔ ShiftHeld held)
    (hsafe : ¬ ReleasesOneOfTwo held scancode) :
    (keyboardHandler scancode s).shiftPressed = 1 ↔ ShiftHeld (heldNext held scancode) := by
  have hdiff : leftShift ≠ rightShift := by decide
  rw [keyboardHandler_shiftPressed]
  unfold heldNext
  by_cases hb : IsBreak scancode
  · rw [if_pos hb, if_pos hb]
    unfold ReleasesOneOfTwo at hsafe
    generalize keyReleased scancode = k at hsafe ⊢
    by_cases hl : k = leftShift
    · have hright : ¬ held rightShift = true := fun hr => hsafe ⟨hb, Or.inl ⟨hl, hr⟩⟩
      rw [if_pos (Or.inl hl), hl]
      simp [ShiftHeld, Function.update_of_ne hdiff.symm, hright]
    · by_cases hr : k = rightShift
      · have hleft : ¬ held leftShift = true := fun hl => hsafe ⟨hb, Or.inr ⟨hr, hl⟩⟩
        rw [if_pos (Or.inr hr), hr]
        simp [ShiftHeld, Function.update_of_ne hdiff, hleft]
      · rw [if_neg (by simp [hl, hr]), h]
        simp [ShiftHeld, Function.update_of_ne (Ne.symm hl), Function.update_of_ne (Ne.symm hr)]
  · rw [if_neg hb, if_neg hb]
    by_cases hl : scancode = leftShift
    · simp [hl, ShiftHeld]
    · by_cases hr : scancode = rightShift
      · simp [hr, ShiftHeld]
      · rw [if_neg (by simp [hl, hr]), h]
        simp [ShiftHeld, Function.update_of_ne (Ne.symm hl), Function.update_of_ne (Ne.symm hr)]

/-- Every scancode keeps the control flag true to the key. -/
theorem ctrl_handler (h : s.ctrlPressed = 1 ↔ held control = true) :
    (keyboardHandler scancode s).ctrlPressed = 1 ↔ heldNext held scancode control = true := by
  rw [keyboardHandler_ctrlPressed]
  unfold heldNext
  by_cases hb : IsBreak scancode
  · rw [if_pos hb, if_pos hb]
    by_cases hc : keyReleased scancode = control
    · simp [hc]
    · rw [if_neg hc, Function.update_of_ne (Ne.symm hc), h]
  · rw [if_neg hb, if_neg hb]
    by_cases hc : scancode = control
    · simp [hc]
    · rw [if_neg hc, Function.update_of_ne (Ne.symm hc), h]

/-- The release of one shift key while the other is held leaves the flag cleared. -/
theorem not_shift_of_releases (h : ReleasesOneOfTwo held scancode) :
    (keyboardHandler scancode s).shiftPressed = 0 ∧ ShiftHeld (heldNext held scancode) := by
  have hdiff : leftShift ≠ rightShift := by decide
  obtain ⟨hb, hkeys⟩ := h
  rw [keyboardHandler_shiftPressed, if_pos hb, heldNext, if_pos hb]
  rcases hkeys with ⟨hkey, hother⟩ | ⟨hkey, hother⟩
  · refine ⟨if_pos (Or.inl hkey), Or.inr ?_⟩
    rw [hkey, Function.update_of_ne hdiff.symm, hother]
  · refine ⟨if_pos (Or.inr hkey), Or.inl ?_⟩
    rw [hkey, Function.update_of_ne hdiff, hother]

theorem letter_special (h : IsLetter scancode) :
    scancode ≠ enter ∧ scancode ≠ backspace ∧ scancode ≠ 72 ∧ scancode ≠ 80 ∧ scancode < 128 := by
  unfold IsLetter at h
  unfold enter backspace
  grind

/-- With flags that are those of the keys, letters are translated with the right map. -/
theorem tracks_of_flags (hflags : FlagsBinary s) (hshift : s.shiftPressed = 1 ↔ ShiftHeld held)
    (hctrl : s.ctrlPressed = 1 ↔ held control = true) : Tracks s held := by
  refine ⟨hshift, hctrl, fun scancode hletter => ?_⟩
  obtain ⟨henter, hback, hup, hdown, hlt⟩ := letter_special hletter
  have hshift' : s.shiftPressed ≠ 0 ↔ ShiftHeld held := by
    rw [← hshift]
    have := hflags.1
    omega
  have hctrl' : s.ctrlPressed ≠ 0 ↔ held control = true := by
    rw [← hctrl]
    have := hflags.2
    omega
  unfold toAscii letterOf
  simp only [henter, hback, hup, hdown, hlt, hshift', hctrl', if_false, if_true]

end Flags

/-! ## Every sequence -/

theorem afterKeys_snoc (console : Console) (pre : List UInt8) (scancode : UInt8) :
    afterKeys console (pre ++ [scancode]) = keyboardHandler scancode (afterKeys console pre) := by
  simp [afterKeys]

theorem heldAfter_snoc (pre : List UInt8) (scancode : UInt8) :
    heldAfter (pre ++ [scancode]) = heldNext (heldAfter pre) scancode := by
  simp [heldAfter]

theorem flagsBinary_afterKeys (console : Console) (scancodes : List UInt8) :
    FlagsBinary (afterKeys console scancodes) := by
  induction scancodes using List.reverseRecOn with
  | nil => exact ⟨Or.inl rfl, Or.inl rfl⟩
  | append_singleton pre scancode ih =>
      rw [afterKeys_snoc]
      exact ih.handler scancode

/-- **The flags are those of the keys, but for one case.**  In every sequence of scancodes,
alternating or not, the flags and the translation of the letters agree with the keys held
after every call of the handler if and only if no call releases one shift key while the other
one is held. -/
theorem modifiers_track_iff (console : Console) (scancodes : List UInt8) :
    (∀ pre, pre <+: scancodes → Tracks (afterKeys console pre) (heldAfter pre)) ↔
      ∀ pre scancode, pre ++ [scancode] <+: scancodes →
        ¬ ReleasesOneOfTwo (heldAfter pre) scancode := by
  constructor
  · intro h pre scancode hpre hrel
    have htracks := h _ hpre
    obtain ⟨hzero, hheld⟩ := not_shift_of_releases (s := afterKeys console pre) hrel
    rw [afterKeys_snoc, heldAfter_snoc] at htracks
    rw [htracks.shift.2 hheld] at hzero
    cases hzero
  · intro h pre
    induction pre using List.reverseRecOn with
    | nil =>
        intro _
        exact tracks_of_flags ⟨Or.inl rfl, Or.inl rfl⟩
          (by simp [afterKeys, boot, heldAfter, ShiftHeld]) (by simp [afterKeys, boot, heldAfter])
    | append_singleton pre scancode ih =>
        intro hpre
        have hbefore := ih ((List.prefix_append pre [scancode]).trans hpre)
        have hflags := flagsBinary_afterKeys console (pre ++ [scancode])
        rw [afterKeys_snoc] at hflags ⊢
        rw [heldAfter_snoc]
        exact tracks_of_flags hflags (shift_handler hbefore.shift (h pre scancode hpre))
          (ctrl_handler hbefore.ctrl)

/-- Both shift keys are pressed and the left one is released: the right one is held, the flag
is clear, and the key A makes a small letter. -/
theorem modifiers_two_shifts :
    Alternates (fun _ => false) [0x2A, 0x36, 0xAA] ∧
      heldAfter [0x2A, 0x36, 0xAA] rightShift = true ∧
      (afterKeys Print.bootConsole [0x2A, 0x36, 0xAA]).shiftPressed = 0 ∧
      toAscii (afterKeys Print.bootConsole [0x2A, 0x36, 0xAA]) 0x1E = 97 ∧
      ¬ Tracks (afterKeys Print.bootConsole [0x2A, 0x36, 0xAA]) (heldAfter [0x2A, 0x36, 0xAA]) := by
  have hheld : heldAfter [0x2A, 0x36, 0xAA] rightShift = true := by decide
  have hzero : (afterKeys Print.bootConsole [0x2A, 0x36, 0xAA]).shiftPressed = 0 := by decide
  refine ⟨⟨by decide, by decide, by decide, trivial⟩, hheld, hzero, by decide, fun h => ?_⟩
  rw [h.shift.2 (Or.inr hheld)] at hzero
  cases hzero

end BenmoshOS.Keyboard
