import BenmoshOS.Keyboard.Basic

/-!
# The keyboard queue under interrupts

The handler can run between any two pops, and in the middle of one: `keyboard_pop_char` and
`kbd_getchar` test the indices, read the cell and move the tail in three steps.  `Runs r`
says that the session `r` is reached from boot by interrupts with any scancodes and by pops,
whole ones and ones that are interrupted; pops do not overlap each other.

A session remembers the characters accepted and the nonzero characters popped so far.  The
handler has accepted a character when it moves the head.
-/

namespace BenmoshOS.Keyboard

open Print (Console)

/-- The characters that have not been read yet. -/
def unread (s : State) : List UInt8 := s.kbd.contents kbdBufferSize

/-- The character the handler makes of a scancode, 0 when it makes none. -/
def produced (scancode : UInt8) (s : State) : UInt8 :=
  if scancode &&& 0x80 ≠ 0 then 0
  else if scancode = leftShift ∨ scancode = rightShift then 0
  else if scancode = control then 0
  else if scancode = 0x49 then 0
  else if scancode = 0x51 then 0
  else toAscii s scancode

/-- The handler accepts the character it makes. -/
def Accepts (scancode : UInt8) (s : State) : Prop :=
  (keyboardHandler scancode s).kbd.head ≠ s.kbd.head

instance (scancode : UInt8) (s : State) : Decidable (Accepts scancode s) := by
  unfold Accepts
  infer_instance

/-! ## Sessions -/

/-- How far a pop has come: it has found the queue nonempty, or it has read a character. -/
inductive Phase where
  | idle
  | tested
  | holding (c : UInt8)
  deriving DecidableEq, Repr

/-- The driver with a pop under way, and what has gone in and come out. -/
structure Session where
  state : State
  phase : Phase
  accepted : List UInt8
  popped : List UInt8

/-- The list of a character, none for the 0 that stands for no character. -/
def nonzero (c : UInt8) : List UInt8 := if c ≠ 0 then [c] else []

/-- An interrupt. -/
def Session.key (r : Session) (scancode : UInt8) : Session :=
  { r with
    state := keyboardHandler scancode r.state
    accepted := r.accepted ++
      if Accepts scancode r.state then [produced scancode r.state] else [] }

/-- A whole pop, by one of the two functions. -/
def Session.call (r : Session) (pop : State → UInt8 × State) : Session :=
  { r with state := (pop r.state).2, popped := r.popped ++ nonzero (pop r.state).1 }

/-- The test of a pop: on an empty queue it returns 0. -/
def Session.test (r : Session) : Session :=
  if r.state.kbd.head = r.state.kbd.tail then r else { r with phase := .tested }

/-- The read of a pop. -/
def Session.read (r : Session) : Session :=
  { r with phase := .holding (r.state.kbd.cells r.state.kbd.tail) }

/-- The last step of a pop: the tail moves and the character is returned. -/
def Session.advance (r : Session) (c : UInt8) : Session :=
  { r with
    state := { r.state with kbd := r.state.kbd.pop kbdBufferSize }
    phase := .idle
    popped := r.popped ++ nonzero c }

/-- The sessions reached from boot. -/
inductive Runs (console : Console) : Session → Prop
  | boot : Runs console ⟨boot console, .idle, [], []⟩
  | key {r : Session} (scancode : UInt8) : Runs console r → Runs console (r.key scancode)
  | popChar {r : Session} : Runs console r → r.phase = .idle →
      Runs console (r.call keyboardPopChar)
  | getchar {r : Session} : Runs console r → r.phase = .idle → Runs console (r.call kbdGetchar)
  | test {r : Session} : Runs console r → r.phase = .idle → Runs console r.test
  | read {r : Session} : Runs console r → r.phase = .tested → Runs console r.read
  | advance {r : Session} {c : UInt8} : Runs console r → r.phase = .holding c →
      Runs console (r.advance c)

/-! ## What one call does to the queue -/

/-- The handler leaves the queue alone, or puts the character it has made into it. -/
theorem keyboardHandler_kbd (scancode : UInt8) (s : State) :
    (keyboardHandler scancode s).kbd = (enqueue s (produced scancode s)).kbd := by
  have hnone : enqueue s 0 = s := if_neg (fun h => h rfl)
  unfold keyboardHandler produced
  split
  · rw [hnone]
    simp only
    split
    · rfl
    · split
      · rfl
      · rfl
  · split
    · rw [hnone]
    · split
      · rw [hnone]
      · split
        · rw [hnone]
        · split
          · rw [hnone]
          · rfl

theorem keyboardHandler_cases (scancode : UInt8) {s : State}
    (h : s.kbd.WellFormed kbdBufferSize) :
    ((keyboardHandler scancode s).kbd = s.kbd ∧ ¬ Accepts scancode s ∧
        (produced scancode s ≠ 0 → (s.kbd.head + 1) % kbdBufferSize = s.kbd.tail)) ∨
      ((keyboardHandler scancode s).kbd = s.kbd.push kbdBufferSize (produced scancode s) ∧
        Accepts scancode s ∧ produced scancode s ≠ 0 ∧
        (s.kbd.head + 1) % kbdBufferSize ≠ s.kbd.tail) := by
  have hkbd := keyboardHandler_kbd scancode s
  unfold Accepts
  generalize produced scancode s = c at hkbd ⊢
  rw [hkbd]
  unfold enqueue
  by_cases hc : c ≠ 0
  · rw [if_pos hc]
    by_cases hroom : (s.kbd.head + 1) % kbdBufferSize ≠ s.kbd.tail
    · rw [if_pos hroom]
      refine Or.inr ⟨rfl, ?_, hc, hroom⟩
      have hlt := h.head_lt
      simp only [Fifo.push, Fifo.succ_mod_eq hlt]
      unfold kbdBufferSize at hlt ⊢
      split
      · omega
      · omega
    · rw [if_neg hroom]
      exact Or.inl ⟨rfl, fun hne => hne rfl, fun _ => not_not.1 hroom⟩
  · rw [if_neg hc]
    exact Or.inl ⟨rfl, fun hne => hne rfl, fun hne => absurd hne hc⟩

/-! ## The invariant -/

/-- What every session satisfies: nothing is lost, doubled or reordered, and a pop under way
has seen the head of the queue. -/
structure Inv (r : Session) : Prop where
  wf : r.state.kbd.WellFormed kbdBufferSize
  nonzero : ∀ c ∈ unread r.state, c ≠ 0
  order : r.popped ++ unread r.state = r.accepted
  tested : r.phase = .tested → unread r.state ≠ []
  holding : ∀ c, r.phase = .holding c → (unread r.state).head? = some c

theorem nonzero_of_ne {c : UInt8} (h : c ≠ 0) : nonzero c = [c] := if_pos h

/-- A handler call appends what it accepts to the queue. -/
theorem unread_keyboardHandler (scancode : UInt8) {s : State}
    (h : s.kbd.WellFormed kbdBufferSize) :
    unread (keyboardHandler scancode s) =
      unread s ++ if Accepts scancode s then [produced scancode s] else [] := by
  rcases keyboardHandler_cases scancode h with ⟨hkbd, hno, -⟩ | ⟨hkbd, hyes, -, hroom⟩
  · rw [if_neg hno, List.append_nil, unread, hkbd, unread]
  · rw [if_pos hyes, unread, hkbd, h.contents_push hroom, unread]

theorem Inv.key {r : Session} (h : Inv r) (scancode : UInt8) : Inv (r.key scancode) := by
  have hunread := unread_keyboardHandler scancode h.wf
  refine ⟨?_, ?_, ?_, ?_, ?_⟩
  · rcases keyboardHandler_cases scancode h.wf with ⟨hkbd, -⟩ | ⟨hkbd, -⟩
    · rw [Session.key, hkbd]
      exact h.wf
    · rw [Session.key, hkbd]
      exact h.wf.push
  · intro c hc
    rw [Session.key, hunread, List.mem_append] at hc
    rcases hc with hold | hnew
    · exact h.nonzero c hold
    · rcases keyboardHandler_cases scancode h.wf with ⟨-, hno, -⟩ | ⟨-, hyes, hne, -⟩
      · rw [if_neg hno] at hnew
        cases hnew
      · rw [if_pos hyes, List.mem_singleton] at hnew
        exact hnew ▸ hne
  · rw [Session.key, hunread, ← List.append_assoc, h.order]
  · intro hphase
    rw [Session.key, hunread]
    exact List.append_ne_nil_of_left_ne_nil (h.tested hphase) _
  · intro c hphase
    have hhead := h.holding c hphase
    rw [Session.key, hunread, List.head?_append, hhead]
    rfl

/-- Taking the oldest character. -/
theorem Inv.pop {r : Session} (h : Inv r) (hne : r.state.kbd.head ≠ r.state.kbd.tail) :
    Inv (r.advance (r.state.kbd.cells r.state.kbd.tail)) := by
  have hcontents := h.wf.contents_pop hne
  have hcons : unread r.state = r.state.kbd.cells r.state.kbd.tail ::
      unread (r.advance (r.state.kbd.cells r.state.kbd.tail)).state := hcontents
  have hfirst := h.nonzero (r.state.kbd.cells r.state.kbd.tail) (by rw [hcons]; simp)
  refine ⟨h.wf.pop, fun c hc => h.nonzero c ?_, ?_, fun hphase => ?_, fun c hphase => ?_⟩
  · rw [hcons]
    exact List.mem_cons_of_mem _ hc
  · have horder := h.order
    rw [hcons] at horder
    rw [Session.advance, nonzero_of_ne hfirst, List.append_assoc, List.singleton_append]
    exact horder
  · cases hphase
  · cases hphase

/-- The functions that pop do what the three steps do one after the other. -/
theorem call_popFrom {r : Session} (hphase : r.phase = .idle) :
    r.call popFrom =
      if r.state.kbd.head = r.state.kbd.tail then r
      else r.advance (r.state.kbd.cells r.state.kbd.tail) := by
  unfold Session.call popFrom
  split
  · simp [nonzero]
  · rw [Session.advance, ← hphase]

theorem Inv.call {r : Session} (h : Inv r) (hphase : r.phase = .idle) : Inv (r.call popFrom) := by
  rw [call_popFrom hphase]
  split
  · exact h
  · next hne => exact h.pop hne

theorem head?_unread {r : Session} (h : Inv r) (hne : unread r.state ≠ []) :
    r.state.kbd.head ≠ r.state.kbd.tail ∧
      (unread r.state).head? = some (r.state.kbd.cells r.state.kbd.tail) := by
  have hindices := mt h.wf.contents_eq_nil_iff.2 hne
  refine ⟨hindices, ?_⟩
  rw [unread, h.wf.contents_pop hindices]
  rfl

theorem Runs.inv {console : Console} {r : Session} (h : Runs console r) : Inv r := by
  induction h with
  | boot =>
      have hzero : 0 < kbdBufferSize := by decide
      have hwf : (Keyboard.boot console).kbd.WellFormed kbdBufferSize := ⟨hzero, hzero⟩
      have hempty : unread (Keyboard.boot console) = [] := hwf.contents_eq_nil_iff.2 rfl
      exact ⟨hwf, by simp [hempty], by simp [hempty], by simp, by simp⟩
  | key scancode _ ih => exact ih.key scancode
  | popChar _ hphase ih => exact ih.call hphase
  | getchar _ hphase ih => exact ih.call hphase
  | @test r _ hphase ih =>
      unfold Session.test
      split
      · exact ih
      · next hne =>
          refine ⟨ih.wf, ih.nonzero, ih.order, fun _ => ?_, by simp⟩
          exact mt ih.wf.contents_eq_nil_iff.1 hne
  | @read r _ hphase ih =>
      have hhead := (head?_unread ih (ih.tested hphase)).2
      refine ⟨ih.wf, ih.nonzero, ih.order, by simp [Session.read], fun c hc => ?_⟩
      cases hc
      exact hhead
  | @advance r c _ hphase ih =>
      have hheld := ih.holding c hphase
      have hne : unread r.state ≠ [] := fun hnil => by simp [hnil] at hheld
      obtain ⟨hindices, hhead⟩ := head?_unread ih hne
      obtain rfl : r.state.kbd.cells r.state.kbd.tail = c :=
        Option.some.inj (hhead.symm.trans hheld)
      exact ih.pop hindices

theorem unread_of_pop_eq_zero {r : Session} (h : Inv r) (hzero : (popFrom r.state).1 = 0) :
    unread r.state = [] := by
  by_contra hne
  obtain ⟨hindices, hhead⟩ := head?_unread h hne
  rw [popFrom, if_neg hindices] at hzero
  exact h.nonzero _ (List.mem_of_mem_head? hhead) hzero

/-- **The keyboard queue loses, doubles and reorders nothing.**  In every session what has
been popped followed by what is unread is what has been accepted.  A character is dropped only
when 127 characters are unread, an interrupt leaves the unread characters in place, and a pop
returns 0 only when there are none; a pop that is interrupted still returns the oldest
one. -/
theorem keyboard_fifo {console : Console} {r : Session} (h : Runs console r) :
    r.popped ++ unread r.state = r.accepted ∧
      (∀ scancode, produced scancode r.state ≠ 0 → ¬ Accepts scancode r.state →
        (unread r.state).length = 127) ∧
      (∀ scancode, unread (keyboardHandler scancode r.state) =
        unread r.state ++ if Accepts scancode r.state then [produced scancode r.state] else []) ∧
      ((keyboardPopChar r.state).1 = 0 → unread r.state = []) ∧
      ((kbdGetchar r.state).1 = 0 → unread r.state = []) ∧
      (r.phase = .tested → unread r.state ≠ []) ∧
      ∀ c, r.phase = .holding c → c ≠ 0 ∧ (unread r.state).head? = some c := by
  have hinv := h.inv
  refine ⟨hinv.order, fun scancode hc hdrop => ?_, fun scancode => ?_, ?_, ?_, hinv.tested,
    fun c hphase => ?_⟩
  · rcases keyboardHandler_cases scancode hinv.wf with ⟨-, -, hfull⟩ | ⟨-, hyes, -⟩
    · rw [unread, Fifo.length_contents, hinv.wf.full_iff.1 (hfull hc)]
      rfl
    · exact absurd hyes hdrop
  · exact unread_keyboardHandler scancode hinv.wf
  · exact unread_of_pop_eq_zero hinv
  · exact unread_of_pop_eq_zero hinv
  · have hhead := hinv.holding c hphase
    exact ⟨hinv.nonzero c (List.mem_of_mem_head? hhead), hhead⟩

/-- The key A, and a pop that is interrupted by the key B. -/
theorem keyboard_fifo_ab :
    let r := ((((Session.mk (boot Print.bootConsole) .idle [] []).key 0x1E).test).key 0x30).read
    r.popped ++ unread r.state = r.accepted := by
  have hboot : Runs Print.bootConsole ⟨boot Print.bootConsole, .idle, [], []⟩ := Runs.boot
  exact (keyboard_fifo (((hboot.key 0x1E).test rfl).key 0x30 |>.read (by decide))).1

end BenmoshOS.Keyboard
