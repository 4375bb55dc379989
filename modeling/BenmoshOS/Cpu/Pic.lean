import BenmoshOS.Lib.Ports

/-!
# The interrupt controllers and the interrupt handlers: `cpu/pic/pic.c`, `cpu/idt/idt.c`

Two cascaded 8259 controllers hand hardware interrupts to the processor.  The kernel initialises
them with `pic_remap`, acknowledges each interrupt with `pic_send_eoi`, and switches tasks from
inside the timer handler.  A controller holds back every interrupt while one of the same or a
higher priority is in service, so an acknowledgement that comes too late, or for a task that is
not running, would stop the clock.

* `Chip` — one controller: its registers and its initialisation sequence.  `pics` are the two of
  them behind their ports.
* `isrHandler` — what `isr_handler` does for a hardware interrupt, as a list of actions.
* `Machine.Step` — the controllers, the interrupt flag and any number of tasks, each with the
  handlers it has entered and not yet left.
* `never_blocked` — in every reachable state in which interrupts are enabled nothing is in service,
  and the running task is in no handler.
-/

namespace BenmoshOS

namespace Irq

/-! ## The controllers -/

/-- The initialisation words a controller waits for. -/
inductive Icw where
  | icw2
  | icw3
  | icw4
  deriving DecidableEq, Repr

/-- An 8259 controller: the request, service and mask registers, and what the initialisation words
have set. -/
structure Chip where
  irr : BitVec 8
  isr : BitVec 8
  imr : BitVec 8
  offset : UInt8
  cascade : UInt8
  mode : UInt8
  expected : List Icw
  deriving DecidableEq, Repr

namespace Chip

/-- A write to the command port: ICW1, or the non-specific end of interrupt, which takes the
interrupt of the highest priority out of service. -/
def command (c : Chip) (v : UInt8) : Chip :=
  if v &&& 0x10 ≠ 0 then
    { c with
      irr := 0
      isr := 0
      imr := 0
      expected := .icw2 :: ((if v &&& 0x02 = 0 then [.icw3] else []) ++
        if v &&& 0x01 ≠ 0 then [.icw4] else []) }
  else if v = 0x20 then { c with isr := c.isr &&& (c.isr - 1) }
  else c

/-- A write to the data port: the next initialisation word, or the mask. -/
def data (c : Chip) (v : UInt8) : Chip :=
  match c.expected with
  | [] => { c with imr := v.toBitVec }
  | .icw2 :: rest => { c with offset := v &&& 0xF8, expected := rest }
  | .icw3 :: rest => { c with cascade := v, expected := rest }
  | .icw4 :: rest => { c with mode := v, expected := rest }

/-- Request `n` may interrupt: it is pending and not masked, and nothing of its priority or a
higher one is in service. -/
def Grants (c : Chip) (n : Nat) : Prop :=
  c.irr.getLsbD n = true ∧ c.imr.getLsbD n = false ∧ ∀ k ≤ n, c.isr.getLsbD k = false

/-- The processor takes request `n`. -/
def acknowledge (c : Chip) (n : Nat) : Chip :=
  { c with irr := c.irr &&& ~~~ (1#8 <<< n), isr := c.isr ||| (1#8 <<< n) }

/-- A device raises line `n`. -/
def raise (c : Chip) (n : Nat) : Chip := { c with irr := c.irr ||| (1#8 <<< n) }

/-- A device takes its request back. -/
def lower (c : Chip) (n : Nat) : Chip := { c with irr := c.irr &&& ~~~ (1#8 <<< n) }

end Chip

/-- The two controllers. -/
structure Chips where
  master : Chip
  slave : Chip

/-- The controllers behind their ports.  Port `0x80` is only written to wait. -/
def pics : Device Chips where
  inb _ s := (0, s)
  inw _ s := (0, s)
  outb port v s :=
    if port = 0x20 then { s with master := s.master.command v }
    else if port = 0x21 then { s with master := s.master.data v }
    else if port = 0xA0 then { s with slave := s.slave.command v }
    else if port = 0xA1 then { s with slave := s.slave.data v }
    else s
  outw _ _ s := s

/-- A write to a controller, and `io_wait`. -/
def outWait (port : UInt16) (v : UInt8) : Ports Unit := do
  Ports.outb port v
  Ports.outb 0x80 0

/-- `pic_remap`. -/
def picRemap : Ports Unit := do
  outWait 0x20 (0x11 ||| 0x11)
  outWait 0xA0 (0x11 ||| 0x11)
  outWait 0x21 0x20
  outWait 0xA1 0x28
  outWait 0x21 0x04
  outWait 0xA1 0x02
  outWait 0x21 0x01
  outWait 0xA1 0x01
  outWait 0x21 0xFC
  outWait 0xA1 0xFF

/-- `pic_send_eoi`. -/
def picSendEoi (irq : UInt8) : Ports Unit :=
  if irq ≥ 8 then do
    outWait 0xA0 0x20
    outWait 0x20 0x20
  else outWait 0x20 0x20

/-- Vectors from `0x20` and `0x28` on, the slave at line 2, only timer and keyboard let through,
nothing pending and nothing in service. -/
def remapped : Chips where
  master := ⟨0, 0, 0xFC, 0x20, 0x04, 0x01, []⟩
  slave := ⟨0, 0, 0xFF, 0x28, 0x02, 0x01, []⟩

/-- **What `pic_remap` leaves**, whatever state the firmware left the controllers in. -/
theorem run_picRemap (s : Chips) : picRemap.run pics s = ((), remapped) := rfl

theorem run_picSendEoi (irq : UInt8) (s : Chips) : (picSendEoi irq).run pics s =
    ((), { master := { s.master with isr := s.master.isr &&& (s.master.isr - 1) },
           slave := if irq ≥ 8 then { s.slave with isr := s.slave.isr &&& (s.slave.isr - 1) }
             else s.slave }) := by
  unfold picSendEoi
  split_ifs <;> rfl

/-! ## The handlers -/

/-- What `isr_handler` does for a hardware interrupt. -/
inductive Action where
  /-- `global_ticks++` -/
  | tick
  /-- `keyboard_handler()` -/
  | keyboard
  /-- `inportb(0x60)` -/
  | mouse
  /-- `pic_send_eoi(irq)` -/
  | eoi (irq : UInt8)
  /-- `task_yield()` -/
  | yield
  deriving DecidableEq, Repr

/-- `isr_handler` for the hardware interrupts. -/
def isrHandler (intNo : Nat) : List Action :=
  (match intNo with
    | 0x20 => [.tick, .eoi 0, .yield]
    | 0x21 => [.keyboard]
    | 0x2C => [.mouse]
    | _ => []) ++
  if 32 ≤ intNo ∧ intNo < 48 then [.eoi (UInt8.ofNat (intNo - 32))] else []

/-- A handler that has been entered: what it has still to do, and the interrupt flag of the code
it has interrupted. -/
structure Frame where
  rest : List Action
  flag : Bool

/-- A task by the handlers it is in, the innermost first. -/
abbrev Thread := List Frame

/-- The controllers, the interrupt flag, the running task and the others.  A suspended task keeps
the interrupt flag it will have once `task_yield` returns in it. -/
structure Machine where
  chips : Chips
  interrupts : Bool
  current : Thread
  suspended : List (Thread × Bool)

namespace Machine

/-- The processor enters the handler of a vector through an interrupt gate. -/
def enter (m : Machine) (vector : Nat) : Machine :=
  { m with interrupts := false, current := ⟨isrHandler vector, m.interrupts⟩ :: m.current }

/-- What can happen next. -/
inductive Step : Machine → Machine → Prop
  /-- A device raises a line of the master. -/
  | raise {m : Machine} (n : Nat) (hn : n < 8) :
      Step m { m with chips := { m.chips with master := m.chips.master.raise n } }
  /-- A device takes its request back. -/
  | lower {m : Machine} (n : Nat) :
      Step m { m with chips := { m.chips with master := m.chips.master.lower n } }
  /-- Code outside the handlers sets or clears the interrupt flag. -/
  | code {m : Machine} (flag : Bool) (hcode : m.current = []) :
      Step m { m with interrupts := flag }
  /-- The processor takes an interrupt. -/
  | interrupt {m : Machine} {n : Nat} (hflag : m.interrupts = true) (hn : n < 8)
      (hgrants : m.chips.master.Grants n) :
      Step m (enter { m with chips := { m.chips with master := m.chips.master.acknowledge n } }
        (m.chips.master.offset.toNat + n))
  /-- A request is gone before it is acknowledged: the controller answers with line 7 and puts
  nothing in service. -/
  | spurious {m : Machine} (hflag : m.interrupts = true) :
      Step m (m.enter (m.chips.master.offset.toNat + 7))
  /-- A handler counts a tick, or reads a device. -/
  | work {m : Machine} {a : Action} {rest : List Action} {flag : Bool} {outer : Thread}
      (hcurrent : m.current = ⟨a :: rest, flag⟩ :: outer)
      (ha : a = .tick ∨ a = .keyboard ∨ a = .mouse) :
      Step m { m with current := ⟨rest, flag⟩ :: outer }
  /-- A handler acknowledges an interrupt. -/
  | eoi {m : Machine} {irq : UInt8} {rest : List Action} {flag : Bool} {outer : Thread}
      (hcurrent : m.current = ⟨.eoi irq :: rest, flag⟩ :: outer) :
      Step m { m with
        chips := ((picSendEoi irq).run pics m.chips).2
        current := ⟨rest, flag⟩ :: outer }
  /-- `task_yield` in a handler finds no other task. -/
  | stay {m : Machine} {rest : List Action} {flag : Bool} {outer : Thread}
      (hcurrent : m.current = ⟨.yield :: rest, flag⟩ :: outer) :
      Step m { m with current := ⟨rest, flag⟩ :: outer }
  /-- `task_yield` in a handler switches to another task. -/
  | preempt {m : Machine} {rest : List Action} {flag : Bool} {outer : Thread}
      {l₁ l₂ : List (Thread × Bool)} {next : Thread × Bool}
      (hcurrent : m.current = ⟨.yield :: rest, flag⟩ :: outer)
      (hsuspended : m.suspended = l₁ ++ next :: l₂) :
      Step m { m with
        interrupts := next.2
        current := next.1
        suspended := l₁ ++ l₂ ++ [(⟨rest, flag⟩ :: outer, m.interrupts)] }
  /-- The handler returns, and `iret` restores the flag. -/
  | iret {m : Machine} {flag : Bool} {outer : Thread} (hcurrent : m.current = ⟨[], flag⟩ :: outer) :
      Step m { m with interrupts := flag, current := outer }
  /-- A task calls `task_yield` itself. -/
  | yield {m : Machine} {l₁ l₂ : List (Thread × Bool)} {next : Thread × Bool}
      (hcode : m.current = []) (hsuspended : m.suspended = l₁ ++ next :: l₂) :
      Step m { m with
        interrupts := next.2
        current := next.1
        suspended := l₁ ++ l₂ ++ [([], m.interrupts)] }
  /-- `task_create`: the new task starts with the interrupts enabled. -/
  | create {m : Machine} (hcode : m.current = []) :
      Step m { m with suspended := m.suspended ++ [([], true)] }
  /-- `task_exit`. -/
  | exit {m : Machine} {l₁ l₂ : List (Thread × Bool)} {next : Thread × Bool}
      (hcode : m.current = []) (hsuspended : m.suspended = l₁ ++ next :: l₂) :
      Step m { m with interrupts := next.2, current := next.1, suspended := l₁ ++ l₂ }
  /-- `task_kill`. -/
  | kill {m : Machine} {l₁ l₂ : List (Thread × Bool)} {t : Thread × Bool}
      (hsuspended : m.suspended = l₁ ++ t :: l₂) :
      Step m { m with suspended := l₁ ++ l₂ }

/-- The states reached from the end of `pic_remap`, before the interrupts are enabled.  The
firmware may have left the controllers in any state. -/
inductive Reachable : Machine → Prop
  | boot (firmware : Chips) : Reachable ⟨(picRemap.run pics firmware).2, false, [], []⟩
  | step {m m' : Machine} : Reachable m → Step m m' → Reachable m'

/-! ## The invariant -/

/-- Before a handler yields, it acknowledges an interrupt. -/
def AcknowledgesFirst : List Action → Prop
  | [] => False
  | .eoi _ :: _ => True
  | .yield :: _ => False
  | _ :: rest => AcknowledgesFirst rest

/-- A handler and the service register of the master: nothing is in service, or one interrupt,
which the handler acknowledges before anything else runs. -/
def Owes (rest : List Action) (isr : BitVec 8) : Prop :=
  isr = 0 ∨ (∃ n < 8, isr = 1#8 <<< n) ∧ AcknowledgesFirst rest

/-- A task that is not running: it has called `task_yield` itself, or in one handler. -/
def Resting (t : Thread × Bool) : Prop :=
  t.1 = [] ∨ ∃ f, t = ([f], false) ∧ f.flag = true

structure Inv (m : Machine) : Prop where
  offset : m.chips.master.offset = 0x20
  imr : m.chips.master.imr = 0xFC
  slave : m.chips.slave.isr = 0
  current : (m.current = [] ∧ m.chips.master.isr = 0) ∨
    ∃ f, m.current = [f] ∧ m.interrupts = false ∧ f.flag = true ∧
      Owes f.rest m.chips.master.isr
  suspended : ∀ t ∈ m.suspended, Resting t

variable {m m' : Machine}

/-- The end of interrupt for a single interrupt in service. -/
theorem isr_eoi {isr : BitVec 8} (h : isr = 0 ∨ ∃ n < 8, isr = 1#8 <<< n) :
    isr &&& (isr - 1) = 0 := by
  have hbit : ∀ n < 8, (1#8 <<< n) &&& ((1#8 <<< n) - 1) = 0 := by decide
  obtain rfl | ⟨n, hn, rfl⟩ := h
  · decide
  · exact hbit n hn

/-- Every handler of a line of the master acknowledges its interrupt first. -/
theorem acknowledgesFirst_isrHandler {n : Nat} (hn : n < 8) :
    AcknowledgesFirst (isrHandler (32 + n)) := by
  interval_cases n <;> trivial

theorem Inv.boot (firmware : Chips) : Inv ⟨(picRemap.run pics firmware).2, false, [], []⟩ := by
  rw [run_picRemap]
  exact ⟨rfl, rfl, rfl, Or.inl ⟨rfl, rfl⟩, fun _ h => absurd h List.not_mem_nil⟩

/-- With the interrupts enabled the running task is in no handler. -/
theorem Inv.idle (h : Inv m) (hflag : m.interrupts = true) :
    m.current = [] ∧ m.chips.master.isr = 0 := by
  obtain hidle | ⟨f, -, hoff, -, -⟩ := h.current
  · exact hidle
  · rw [hflag] at hoff
    exact absurd hoff (by simp)

/-- The handler the running task is in. -/
theorem Inv.handler (h : Inv m) {f : Frame} {outer : Thread} (hcurrent : m.current = f :: outer) :
    outer = [] ∧ m.interrupts = false ∧ f.flag = true ∧ Owes f.rest m.chips.master.isr := by
  obtain ⟨hnil, -⟩ | ⟨g, hcur, hoff, hg, howes⟩ := h.current
  · rw [hnil] at hcurrent
    exact absurd hcurrent (by simp)
  · rw [hcur] at hcurrent
    obtain ⟨rfl, rfl⟩ := List.cons.inj hcurrent
    exact ⟨rfl, hoff, hg, howes⟩

/-- Code outside the handlers finds nothing in service. -/
theorem Inv.outside (h : Inv m) (hcode : m.current = []) : m.chips.master.isr = 0 := by
  obtain ⟨-, hisr⟩ | ⟨f, hcur, -⟩ := h.current
  · exact hisr
  · rw [hcode] at hcur
    exact absurd hcur (by simp)

/-- A task that rests is resumed with nothing in service. -/
theorem Resting.current {t : Thread × Bool} (ht : Resting t) {isr : BitVec 8} (hisr : isr = 0) :
    (t.1 = [] ∧ isr = 0) ∨ ∃ f, t.1 = [f] ∧ t.2 = false ∧ f.flag = true ∧ Owes f.rest isr := by
  obtain hnil | ⟨f, rfl, hf⟩ := ht
  · exact Or.inl ⟨hnil, hisr⟩
  · exact Or.inr ⟨f, rfl, rfl, hf, Or.inl hisr⟩

theorem resting_split {l₁ l₂ : List (Thread × Bool)} {t : Thread × Bool}
    (h : ∀ u ∈ l₁ ++ t :: l₂, Resting u) : Resting t ∧ ∀ u ∈ l₁ ++ l₂, Resting u := by
  refine ⟨h t (by simp), fun u hu => h u ?_⟩
  obtain hu | hu := List.mem_append.1 hu
  · simp [hu]
  · simp [hu]

/-- **One step keeps the invariant.** -/
theorem Inv.step (h : Inv m) (hstep : Step m m') : Inv m' := by
  obtain ⟨hoffset, himr, hslave, hcur, hsusp⟩ := h
  have h : Inv m := ⟨hoffset, himr, hslave, hcur, hsusp⟩
  cases hstep with
  | raise n hn => exact ⟨hoffset, himr, hslave, hcur, hsusp⟩
  | lower n => exact ⟨hoffset, himr, hslave, hcur, hsusp⟩
  | code flag hcode =>
      exact ⟨hoffset, himr, hslave, Or.inl ⟨hcode, h.outside hcode⟩, hsusp⟩
  | @interrupt n hflag hn hgrants =>
      obtain ⟨hnil, hisr⟩ := h.idle hflag
      refine ⟨hoffset, himr, hslave, Or.inr ⟨⟨_, m.interrupts⟩, by rw [enter, hnil], rfl, hflag, ?_⟩,
        hsusp⟩
      refine Or.inr ⟨⟨n, hn, ?_⟩, ?_⟩
      · show m.chips.master.isr ||| _ = _
        rw [hisr]
        exact BitVec.zero_or
      · rw [hoffset]
        exact acknowledgesFirst_isrHandler hn
  | spurious hflag =>
      obtain ⟨hnil, hisr⟩ := h.idle hflag
      exact ⟨hoffset, himr, hslave,
        Or.inr ⟨⟨_, m.interrupts⟩, by rw [enter, hnil], rfl, hflag, Or.inl hisr⟩, hsusp⟩
  | @work a rest flag outer hcurrent ha =>
      obtain ⟨rfl, hoff, hf, howes⟩ := h.handler hcurrent
      refine ⟨hoffset, himr, hslave, Or.inr ⟨_, rfl, hoff, hf, howes.imp_right ?_⟩, hsusp⟩
      rintro ⟨hbit, hfirst⟩
      obtain rfl | rfl | rfl := ha
      · exact ⟨hbit, hfirst⟩
      · exact ⟨hbit, hfirst⟩
      · exact ⟨hbit, hfirst⟩
  | @eoi irq rest flag outer hcurrent =>
      obtain ⟨rfl, hoff, hf, howes⟩ := h.handler hcurrent
      rw [run_picSendEoi]
      refine ⟨hoffset, himr, ?_, Or.inr ⟨_, rfl, hoff, hf, Or.inl ?_⟩, hsusp⟩
      · show (if irq ≥ 8 then _ else _ : Chip).isr = 0
        split_ifs
        · exact isr_eoi (Or.inl hslave)
        · exact hslave
      · exact isr_eoi (howes.imp_right And.left)
  | @stay rest flag outer hcurrent =>
      obtain ⟨rfl, hoff, hf, howes⟩ := h.handler hcurrent
      refine ⟨hoffset, himr, hslave, Or.inr ⟨_, rfl, hoff, hf, howes.imp_right fun hno => ?_⟩, hsusp⟩
      exact absurd hno.2 id
  | @preempt rest flag outer l₁ l₂ next hcurrent hsuspended =>
      obtain ⟨rfl, hoff, hf, hzero | ⟨-, hno⟩⟩ := h.handler hcurrent
      · obtain ⟨hnext, hothers⟩ := resting_split (hsuspended ▸ hsusp)
        refine ⟨hoffset, himr, hslave, hnext.current hzero, fun t ht => ?_⟩
        obtain ht | ht := List.mem_append.1 ht
        · exact hothers t ht
        · rw [List.eq_of_mem_singleton ht]
          exact Or.inr ⟨⟨rest, flag⟩, by rw [hoff], hf⟩
      · exact absurd hno id
  | @iret flag outer hcurrent =>
      obtain ⟨rfl, hoff, hf, hzero | ⟨-, hno⟩⟩ := h.handler hcurrent
      · exact ⟨hoffset, himr, hslave, Or.inl ⟨rfl, hzero⟩, hsusp⟩
      · exact absurd hno id
  | @yield l₁ l₂ next hcode hsuspended =>
      obtain ⟨hnext, hothers⟩ := resting_split (hsuspended ▸ hsusp)
      refine ⟨hoffset, himr, hslave, hnext.current (h.outside hcode), fun t ht => ?_⟩
      obtain ht | ht := List.mem_append.1 ht
      · exact hothers t ht
      · rw [List.eq_of_mem_singleton ht]
        exact Or.inl rfl
  | create hcode =>
      refine ⟨hoffset, himr, hslave, hcur, fun t ht => ?_⟩
      obtain ht | ht := List.mem_append.1 ht
      · exact hsusp t ht
      · rw [List.eq_of_mem_singleton ht]
        exact Or.inl rfl
  | @exit l₁ l₂ next hcode hsuspended =>
      obtain ⟨hnext, hothers⟩ := resting_split (hsuspended ▸ hsusp)
      exact ⟨hoffset, himr, hslave, hnext.current (h.outside hcode), hothers⟩
  | @kill l₁ l₂ t hsuspended =>
      obtain ⟨-, hothers⟩ := resting_split (hsuspended ▸ hsusp)
      exact ⟨hoffset, himr, hslave, hcur, hothers⟩

theorem Reachable.inv (h : Reachable m) : Inv m := by
  induction h with
  | boot firmware => exact Inv.boot firmware
  | step _ hstep ih => exact ih.step hstep

/-- **No interrupt is ever held back.**  In every reachable state no task is in more than one
handler, and with the interrupts enabled the running task is in none: nothing is in service in
either controller, so each of the two lines that are let through, timer and keyboard, may
interrupt as soon as it is raised.  The early end of interrupt of the timer handler and the
redundant one that each preempted task sends when it is resumed keep this. -/
theorem never_blocked {m : Machine} (h : Reachable m) : m.current.length ≤ 1 ∧
    (m.interrupts = true → m.current = [] ∧ m.chips.master.isr = 0 ∧ m.chips.slave.isr = 0 ∧
      ∀ n < 2, m.chips.master.irr.getLsbD n = true → m.chips.master.Grants n) := by
  have hinv := h.inv
  refine ⟨?_, fun hflag => ?_⟩
  · obtain ⟨hnil, -⟩ | ⟨f, hcur, -⟩ := hinv.current
    · simp [hnil]
    · simp [hcur]
  · obtain ⟨hnil, hisr⟩ := hinv.idle hflag
    refine ⟨hnil, hisr, hinv.slave, fun n hn hirr => ⟨hirr, ?_, fun k _ => ?_⟩⟩
    · have hopen : ∀ n < 2, (0xFC : BitVec 8).getLsbD n = false := by decide
      rw [hinv.imr]
      exact hopen n hn
    · rw [hisr]
      exact BitVec.getLsbD_zero

/-- The timer interrupt has switched from the first task, which still owes its second end of
interrupt, to a new one. -/
theorem never_blocked_preempted :
    let m : Machine := ⟨remapped, true, [], [([⟨[.eoi 0], true⟩], false)]⟩
    m.current.length ≤ 1 ∧
      (m.interrupts = true → m.current = [] ∧ m.chips.master.isr = 0 ∧ m.chips.slave.isr = 0 ∧
        ∀ n < 2, m.chips.master.irr.getLsbD n = true → m.chips.master.Grants n) := by
  have hstart : Reachable ⟨remapped, true, [], [([], true)]⟩ :=
    ((Reachable.boot remapped).step (.create rfl)).step (.code true rfl)
  have hraised : Reachable ⟨⟨{ remapped.master with irr := 1 }, remapped.slave⟩, true, [],
      [([], true)]⟩ := hstart.step (.raise 0 (by decide))
  have htaken : Reachable ⟨⟨{ remapped.master with isr := 1 }, remapped.slave⟩, false,
      [⟨isrHandler 0x20, true⟩], [([], true)]⟩ :=
    hraised.step (@Step.interrupt _ 0 rfl (by decide)
      ⟨rfl, rfl, fun k _ => BitVec.getLsbD_zero⟩)
  have hticked : Reachable ⟨⟨{ remapped.master with isr := 1 }, remapped.slave⟩, false,
      [⟨[.eoi 0, .yield, .eoi 0], true⟩], [([], true)]⟩ := htaken.step (.work rfl (Or.inl rfl))
  have hsent : Reachable ⟨remapped, false, [⟨[.yield, .eoi 0], true⟩], [([], true)]⟩ :=
    hticked.step (@Step.eoi _ 0 [.yield, .eoi 0] true [] rfl)
  exact never_blocked (hsent.step (@Step.preempt _ _ _ _ [] [] ([], true) rfl rfl))

end Machine

end Irq

end BenmoshOS
