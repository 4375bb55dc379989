import BenmoshOS.Keyboard.Basic
import BenmoshOS.Lib.CString

/-!
# Syscall 4: reading a line

`syscall_dispatcher` reads a line into a static buffer: every task inside the call uses the
same 256 bytes, each with an index of its own.  The loop halts until an interrupt comes, pops
one character and handles it, and yields to other tasks when there is none.  Interrupts are
off for the rest of a round, so a round with what follows it up to the next halt is one step,
and the rounds of several tasks interleave in any order.

A system remembers the characters that each call has popped and, for each call that has
returned, the buffer at that moment.  `read_line_results` says that the lines are right as
long as no task writes over a byte that another one has placed.
-/

namespace BenmoshOS.Syscall

open Keyboard (keyboardPopChar kbdGetchar keyboardHandler)

/-- A task in the loop: its argument, the variables of the loop, and what it has popped. -/
structure Reader where
  ebx : Nat
  maxLen : Nat
  index : Nat
  popped : List UInt8

/-- A call that has returned, with the contents of `input_buffer` at that moment. -/
structure Result where
  task : Nat
  ebx : Nat
  popped : List UInt8
  buffer : Bytes

/-- What the tasks inside the call share, and how far each of them is. -/
structure System where
  kbd : Keyboard.State
  inputBuffer : Bytes
  readers : Nat → Option Reader
  results : List Result

/-- The system before any call. -/
def start (kbd : Keyboard.State) (inputBuffer : Bytes) : System :=
  { kbd := kbd, inputBuffer := inputBuffer, readers := fun _ => none, results := [] }

/-- The cap on the argument. -/
def capLen (ebx : Nat) : Nat := if 255 < ebx then 255 else ebx

/-- `puts`, on the console of the keyboard driver. -/
def System.puts (s : System) (str : List UInt8) : System :=
  { s with kbd := { s.kbd with console := s.kbd.console.puts str } }

/-- `input_buffer[p] = c`. -/
def System.write (s : System) (p : Nat) (c : UInt8) : System :=
  { s with inputBuffer := Function.update s.inputBuffer p c }

/-- Behind the loop: the zero byte, and the return. -/
def System.finish (s : System) (task : Nat) (r : Reader) : System :=
  let s := s.write r.index 0
  { s with
    readers := Function.update s.readers task none
    results := s.results ++ [⟨task, r.ebx, r.popped, s.inputBuffer⟩] }

/-- The test of the loop. -/
def System.again (s : System) (task : Nat) (r : Reader) : System :=
  if r.index < r.maxLen - 1 then { s with readers := Function.update s.readers task (some r) }
  else s.finish task r

/-- The call up to the first round. -/
def System.enter (s : System) (task ebx : Nat) : System :=
  s.again task { ebx := ebx, maxLen := capLen ebx, index := 0, popped := [] }

/-- The handling of a character that has been popped. -/
def System.handle (s : System) (task : Nat) (r : Reader) (c : UInt8) : System :=
  let r := { r with popped := r.popped ++ [c] }
  if c = 10 then ((s.write r.index 10).puts [10]).finish task { r with index := r.index + 1 }
  else if c = 8 then
    if 0 < r.index then (s.puts [8, 32, 8]).again task { r with index := r.index - 1 }
    else s.again task r
  else ((s.write r.index c).puts [c]).again task { r with index := r.index + 1 }

/-- One round of the loop, from the halt on. -/
def System.iterate (s : System) (task : Nat) (r : Reader) : System :=
  let (c, kbd) := keyboardPopChar s.kbd
  let s := { s with kbd := kbd }
  if c = 0 then s    -- `task_yield`
  else s.handle task r c

/-! ## Runs -/

/-- What can happen next: an interrupt of the keyboard, a pop by the shell, a call of the
syscall, or a round of a task inside. -/
inductive Event where
  | key (scancode : UInt8)
  | getchar
  | enter (task ebx : Nat)
  | iterate (task : Nat)

/-- One step of the system; `none` for a call by a task that is inside or with the argument 0,
which returns at once, and for a round of a task that is not inside. -/
def step (s : System) : Event → Option System
  | .key scancode => some { s with kbd := keyboardHandler scancode s.kbd }
  | .getchar => some { s with kbd := (kbdGetchar s.kbd).2 }
  | .enter task ebx =>
      match s.readers task with
      | none => if 1 ≤ ebx then some (s.enter task ebx) else none
      | some _ => none
  | .iterate task => (s.readers task).map (s.iterate task)

/-- A run. -/
def run (s : System) (events : List Event) : Option System := events.foldlM step s

/-- Writing `c` at `p` changes no byte that another task inside has placed. -/
def Spares (s : System) (task p : Nat) (c : UInt8) : Prop :=
  ∀ other r, other ≠ task → s.readers other = some r → p < r.index → s.inputBuffer p = c

/-- The step changes no byte that another task inside has placed: neither with a character
at the index of the task nor with the zero byte at its end. -/
def Harmless (s : System) : Event → Prop
  | .key _ => True
  | .getchar => True
  | .enter task ebx => capLen ebx = 1 → Spares s task 0 0
  | .iterate task => ∀ r, s.readers task = some r →
      let c := (keyboardPopChar s.kbd).1
      (c ≠ 0 ∧ c ≠ 8 → Spares s task r.index c) ∧
        (c ≠ 0 ∧ c ≠ 8 ∧ (c = 10 ∨ r.maxLen - 1 ≤ r.index + 1) → Spares s task (r.index + 1) 0)

/-- The systems reached by harmless steps. -/
inductive HarmlessRuns : System → Prop
  | start (kbd : Keyboard.State) (inputBuffer : Bytes) : HarmlessRuns (start kbd inputBuffer)
  | step {s s' : System} {e : Event} : HarmlessRuns s → Harmless s e → step s e = some s' →
      HarmlessRuns s'

/-! ## The line -/

/-- A character typed behind a line. -/
def edit (line : List UInt8) (c : UInt8) : List UInt8 :=
  if c = 8 then line.dropLast else line ++ [c]

/-- The line edited from the characters popped. -/
def editLine (popped : List UInt8) : List UInt8 := popped.foldl edit []

theorem editLine_snoc (popped : List UInt8) (c : UInt8) :
    editLine (popped ++ [c]) = edit (editLine popped) c := by
  simp [editLine]

/-! ## The invariant -/

/-- What a task inside has got so far stands in the buffer. -/
structure Reading (buffer : Bytes) (r : Reader) : Prop where
  cap : r.maxLen = capLen r.ebx
  length : (editLine r.popped).length = r.index
  bytes : BytesAt buffer 0 (editLine r.popped)
  nonzero : ∀ c ∈ editLine r.popped, c ≠ 0

/-- The string returned by a call is the line edited from what the call popped. -/
structure Right (res : Result) : Prop where
  line : StringAt res.buffer 0 (editLine res.popped)
  length : (editLine res.popped).length ≤ min res.ebx 255 - 1

/-- What holds as long as no task writes over the bytes of another one. -/
structure Inv (s : System) : Prop where
  reading : ∀ task r, s.readers task = some r →
    Reading s.inputBuffer r ∧ r.index < r.maxLen - 1
  right : ∀ res ∈ s.results, Right res

section Invariant

variable {s : System} {task p : Nat} {c : UInt8} {r : Reader} {buffer : Bytes}

theorem capLen_eq (ebx : Nat) : capLen ebx = min ebx 255 := by
  unfold capLen
  split
  · omega
  · omega

/-- A write behind what a task has got, or of the byte that is there, changes nothing for
it. -/
theorem Reading.update (h : Reading buffer r) (hp : p < r.index → buffer p = c) :
    Reading (Function.update buffer p c) r := by
  refine ⟨h.cap, h.length, h.bytes.congr fun i _ hi => ?_, h.nonzero⟩
  rw [Nat.zero_add, h.length] at hi
  by_cases hip : i = p
  · subst hip
    rw [Function.update_self, hp hi]
  · rw [Function.update_of_ne hip]

/-- One more character at the index. -/
theorem Reading.snoc (h : Reading buffer r) (hc : c ≠ 0) (hb : c ≠ 8) :
    Reading (Function.update buffer r.index c)
      { r with popped := r.popped ++ [c], index := r.index + 1 } := by
  have hline : editLine (r.popped ++ [c]) = editLine r.popped ++ [c] := by
    rw [editLine_snoc, edit, if_neg hb]
  have hold := h.update (p := r.index) (c := c) fun hlt => absurd hlt (Nat.lt_irrefl _)
  refine ⟨h.cap, ?_, ?_, fun d hd => ?_⟩
  · rw [hline, List.length_append, h.length]
    rfl
  · rw [hline, bytesAt_append, h.length, Nat.zero_add]
    exact ⟨hold.bytes, Function.update_self _ _ _, trivial⟩
  · rw [hline, List.mem_append, List.mem_singleton] at hd
    rcases hd with hd | rfl
    · exact h.nonzero d hd
    · exact hc

/-- A backspace takes the last character away. -/
theorem Reading.backspace (h : Reading buffer r) :
    Reading buffer { r with popped := r.popped ++ [8], index := r.index - 1 } := by
  have hline : editLine (r.popped ++ [8]) = (editLine r.popped).dropLast := by
    rw [editLine_snoc, edit, if_pos rfl]
  refine ⟨h.cap, ?_, ?_, fun d hd => ?_⟩
  · rw [hline, List.length_dropLast, h.length]
  · have hbytes := h.bytes
    rw [bytesAt_iff] at hbytes ⊢
    intro i hi
    rw [hline] at hi
    simp only [hline, List.getElem_dropLast]
    exact hbytes i (hi.trans_le (List.length_dropLast ▸ Nat.sub_le _ _))
  · rw [hline] at hd
    exact h.nonzero d (List.dropLast_subset _ hd)

/-- The zero byte behind the line makes it the string in the buffer. -/
theorem Reading.right (h : Reading buffer r) (hlen : r.index ≤ r.maxLen - 1) :
    Right ⟨task, r.ebx, r.popped, Function.update buffer r.index 0⟩ := by
  have hkept := h.update (p := r.index) (c := 0) fun hlt => absurd hlt (Nat.lt_irrefl _)
  refine ⟨stringAt_iff.2 ⟨hkept.bytes, h.nonzero, ?_⟩, ?_⟩
  · rw [Nat.zero_add, h.length]
    exact Function.update_self _ _ _
  · rw [h.length, ← capLen_eq, ← h.cap]
    exact hlen

/-- The invariant for every task but the one whose round it is. -/
structure InvBut (s : System) (task : Nat) : Prop where
  reading : ∀ other r, other ≠ task → s.readers other = some r →
    Reading s.inputBuffer r ∧ r.index < r.maxLen - 1
  right : ∀ res ∈ s.results, Right res

theorem Inv.but (h : Inv s) (task : Nat) : InvBut s task :=
  ⟨fun other r _ hr => h.reading other r hr, h.right⟩

theorem InvBut.puts (h : InvBut s task) (str : List UInt8) : InvBut (s.puts str) task :=
  ⟨h.reading, h.right⟩

theorem InvBut.write (h : InvBut s task) (hspares : Spares s task p c) :
    InvBut (s.write p c) task := by
  refine ⟨fun other r hne hr => ?_, h.right⟩
  obtain ⟨hreading, hlt⟩ := h.reading other r hne hr
  exact ⟨hreading.update (hspares other r hne hr), hlt⟩

theorem Spares.write {q : Nat} {d : UInt8} (h : Spares s task p c) (hpq : p ≠ q) :
    Spares (s.write q d) task p c := by
  intro other r hne hr hlt
  have hkept := h other r hne hr hlt
  simpa only [System.write, Function.update_of_ne hpq] using hkept

/-- The return of a call. -/
theorem InvBut.finish (h : InvBut s task) (hr : Reading s.inputBuffer r)
    (hlen : r.index ≤ r.maxLen - 1) (hspares : Spares s task r.index 0) :
    Inv (s.finish task r) := by
  have hwritten := h.write hspares
  constructor
  · intro other r' hother
    simp only [System.finish] at hother
    by_cases hne : other = task
    · subst hne
      rw [Function.update_self] at hother
      cases hother
    · rw [Function.update_of_ne hne] at hother
      exact hwritten.reading other r' hne hother
  · intro res hres
    rcases List.mem_append.1 hres with hold | hnew
    · exact h.right res hold
    · rw [List.mem_singleton.1 hnew]
      exact hr.right hlen

/-- The test of the loop, and the return when it fails. -/
theorem InvBut.again (h : InvBut s task) (hr : Reading s.inputBuffer r)
    (hlen : r.index ≤ r.maxLen - 1)
    (hspares : r.maxLen - 1 ≤ r.index → Spares s task r.index 0) : Inv (s.again task r) := by
  unfold System.again
  split
  · next hlt =>
      refine ⟨fun other r' hother => ?_, h.right⟩
      simp only at hother
      by_cases hne : other = task
      · subst hne
        rw [Function.update_self] at hother
        cases hother
        exact ⟨hr, hlt⟩
      · rw [Function.update_of_ne hne] at hother
        exact h.reading other r' hne hother
  · next hlt => exact h.finish hr hlen (hspares (Nat.le_of_not_lt hlt))

/-- A call begins with the empty line. -/
theorem Inv.enter {ebx : Nat} (h : Inv s) (hebx : 1 ≤ ebx)
    (hharmless : Harmless s (.enter task ebx)) : Inv (s.enter task ebx) := by
  have hcap := capLen_eq ebx
  refine (h.but task).again ⟨rfl, rfl, trivial, by simp [editLine]⟩ (Nat.zero_le _) fun hle => ?_
  refine hharmless ?_
  simp only at hle
  omega

/-- A character that is popped. -/
theorem Inv.handle (h : InvBut s task) (hr : Reading s.inputBuffer r) (hlt : r.index < r.maxLen - 1)
    (hc : c ≠ 0) (hplace : c ≠ 8 → Spares s task r.index c)
    (hend : c ≠ 8 ∧ (c = 10 ∨ r.maxLen - 1 ≤ r.index + 1) → Spares s task (r.index + 1) 0) :
    Inv (s.handle task r c) := by
  have hstep : r.index + 1 ≠ r.index := Nat.succ_ne_self _
  unfold System.handle
  by_cases hnewline : c = 10
  · subst hnewline
    have hb : (10 : UInt8) ≠ 8 := by decide
    rw [if_pos rfl]
    exact ((h.write (hplace hb)).puts [10]).finish (hr.snoc hc hb) hlt
      ((hend ⟨hb, Or.inl rfl⟩).write hstep)
  rw [if_neg hnewline]
  by_cases hb : c = 8
  · subst hb
    rw [if_pos rfl]
    split
    · refine (h.puts [8, 32, 8]).again hr.backspace ?_ fun hle => ?_
      · show r.index - 1 ≤ r.maxLen - 1
        omega
      · have hle : r.maxLen - 1 ≤ r.index - 1 := hle
        omega
    · next hzero =>
        have hzero : ¬ 0 < r.index := hzero
        have hindex : r.index - 1 = r.index := by omega
        have hback := hr.backspace
        rw [hindex] at hback
        refine h.again hback (Nat.le_of_lt hlt) fun hle => ?_
        exact absurd hlt (Nat.not_lt.2 hle)
  · rw [if_neg hb]
    exact ((h.write (hplace hb)).puts [c]).again (hr.snoc hc hb) hlt fun hle =>
      (hend ⟨hb, Or.inr hle⟩).write hstep

theorem Inv.iterate (h : Inv s) (hr : s.readers task = some r)
    (hharmless : Harmless s (.iterate task)) : Inv (s.iterate task r) := by
  obtain ⟨hreading, hlt⟩ := h.reading task r hr
  obtain ⟨hplace, hend⟩ := hharmless r hr
  unfold System.iterate
  generalize keyboardPopChar s.kbd = popped at hplace hend ⊢
  obtain ⟨c, kbd⟩ := popped
  simp only at hplace hend ⊢
  -- the pop changes neither the buffer nor the readers
  have hpopped : InvBut { s with kbd := kbd } task := ⟨(h.but task).reading, h.right⟩
  split
  · exact ⟨h.reading, h.right⟩
  · next hc =>
      exact Inv.handle hpopped hreading hlt hc (fun hb => hplace ⟨hc, hb⟩)
        fun hcond => hend ⟨hc, hcond⟩

/-- One harmless step keeps the invariant. -/
theorem Inv.step {s' : System} {e : Event} (h : Inv s) (hharmless : Harmless s e)
    (hstep : step s e = some s') : Inv s' := by
  cases e with
  | key scancode =>
      cases hstep
      exact ⟨h.reading, h.right⟩
  | getchar =>
      cases hstep
      exact ⟨h.reading, h.right⟩
  | enter task ebx =>
      simp only [Syscall.step] at hstep
      split at hstep
      · split at hstep
        · next hebx =>
            cases hstep
            exact h.enter hebx hharmless
        · cases hstep
      · cases hstep
  | iterate task =>
      obtain ⟨r, hr, rfl⟩ := Option.map_eq_some_iff.1 hstep
      exact h.iterate hr hharmless

end Invariant

theorem HarmlessRuns.inv {s : System} (h : HarmlessRuns s) : Inv s := by
  induction h with
  | start kbd inputBuffer => exact ⟨fun _ _ hr => (by cases hr), fun _ hres => (by cases hres)⟩
  | step _ hharmless hstep ih => exact ih.step hharmless hstep

/-- **Lines are right as long as the tasks spare each other's bytes.**  In every run in which
no step changes a byte of the buffer that another task inside the call has placed, whatever
the number of tasks and the order of their rounds, every call that has returned has left in
the buffer, at its return, the line edited from exactly what it popped, ended by a zero byte
and of at most `min ebx 255 - 1` characters. -/
theorem read_line_results {s : System} (h : HarmlessRuns s) :
    ∀ res ∈ s.results, StringAt res.buffer 0 (editLine res.popped) ∧
      (editLine res.popped).length ≤ min res.ebx 255 - 1 :=
  fun res hres => ⟨(h.inv.right res hres).line, (h.inv.right res hres).length⟩

/-- The boot state of the keyboard, with an empty buffer. -/
def bootSystem : System := start (Keyboard.boot Print.bootConsole) fun _ => 0

section TwoTasks

variable {s s' : System} {task other p : Nat} {c : UInt8} {r : Reader}

theorem System.finish_readers (hne : other ≠ task) :
    (s.finish task r).readers other = s.readers other := Function.update_of_ne hne _ _

theorem System.again_readers (hne : other ≠ task) :
    (s.again task r).readers other = s.readers other := by
  unfold System.again
  split
  · exact Function.update_of_ne hne _ _
  · exact System.finish_readers hne

/-- A round of a task leaves the other tasks where they are. -/
theorem System.iterate_readers (hne : other ≠ task) :
    (s.iterate task r).readers other = s.readers other := by
  unfold System.iterate
  generalize keyboardPopChar s.kbd = popped
  obtain ⟨c, kbd⟩ := popped
  dsimp only
  split
  · rfl
  · unfold System.handle
    dsimp only
    split_ifs
    · exact System.finish_readers hne
    · exact System.again_readers hne
    · exact System.again_readers hne
    · exact System.again_readers hne

/-- The other tasks inside have popped nothing yet. -/
def OthersWait (s : System) (task : Nat) : Prop :=
  ∀ other r, other ≠ task → s.readers other = some r → r.index = 0

theorem OthersWait.spares (h : OthersWait s task) : Spares s task p c := by
  intro other r hne hr hlt
  rw [h other r hne hr] at hlt
  exact absurd hlt (Nat.not_lt_zero p)

/-- A key and the round of a task that pops it, while the others wait. -/
theorem HarmlessRuns.typed (h : HarmlessRuns s) (hwait : OthersWait s task) (scancode : UInt8)
    (hr : s.readers task = some r) :
    HarmlessRuns (System.iterate { s with kbd := keyboardHandler scancode s.kbd } task r) ∧
      OthersWait (System.iterate { s with kbd := keyboardHandler scancode s.kbd } task r) task := by
  have hkey := h.step (e := .key scancode) trivial rfl
  refine ⟨hkey.step (e := .iterate task) (fun r _ => ⟨fun _ => ?_, fun _ => ?_⟩)
    (congrArg (Option.map _) hr), fun other r' hne hr' => ?_⟩
  · exact OthersWait.spares hwait
  · exact OthersWait.spares hwait
  · rw [System.iterate_readers hne] at hr'
    exact hwait other r' hne hr'

end TwoTasks

/-- Tasks 1 and 2 inside the call. -/
def bothInside : System := (bootSystem.enter 1 10).enter 2 10

/-- The system after task 1 has read a line with task 2 inside. -/
def firstLine : System :=
  let s := System.iterate { bothInside with kbd := keyboardHandler 0x1E bothInside.kbd } 1
    ⟨10, 10, 0, []⟩
  System.iterate { s with kbd := keyboardHandler 0x1C s.kbd } 1 ⟨10, 10, 1, [97]⟩

/-- The system after task 2 has read a line behind that. -/
def bothLines : System :=
  let s := System.iterate { firstLine with kbd := keyboardHandler 0x30 firstLine.kbd } 2
    ⟨10, 10, 0, []⟩
  System.iterate { s with kbd := keyboardHandler 0x1C s.kbd } 2 ⟨10, 10, 1, [98]⟩

theorem bothInside_readers {other : Nat} (h₁ : other ≠ 1) (h₂ : other ≠ 2) :
    bothInside.readers other = none :=
  (Function.update_of_ne h₂ _ _).trans (Function.update_of_ne h₁ _ _)

/-- Two tasks inside the call at once; each gets its own line. -/
theorem read_line_results_two :
    run bootSystem [.enter 1 10, .enter 2 10, .key 0x1E, .iterate 1, .key 0x1C, .iterate 1,
        .key 0x30, .iterate 2, .key 0x1C, .iterate 2] = some bothLines ∧
      (bothLines.results.map fun res => (res.task, res.popped)) = [(1, [97, 10]), (2, [98, 10])] ∧
      ∀ res ∈ bothLines.results, StringAt res.buffer 0 (editLine res.popped) ∧
        (editLine res.popped).length ≤ min res.ebx 255 - 1 := by
  have hlong : capLen 10 ≠ 1 := by decide
  have hinside : HarmlessRuns bothInside :=
    ((HarmlessRuns.start _ _).step (e := .enter 1 10) (fun h => absurd h hlong) rfl).step
      (e := .enter 2 10) (fun h => absurd h hlong) rfl
  have hwait₁ : OthersWait bothInside 1 := by
    intro other r hne hr
    by_cases htwo : other = 2
    · subst htwo
      cases hr
      rfl
    · rw [bothInside_readers hne htwo] at hr
      cases hr
  obtain ⟨hrun, hwait⟩ := hinside.typed hwait₁ 0x1E (r := ⟨10, 10, 0, []⟩) rfl
  have hfirst : HarmlessRuns firstLine := (hrun.typed hwait 0x1C (r := ⟨10, 10, 1, [97]⟩) rfl).1
  have hwait₂ : OthersWait firstLine 2 := by
    intro other r hne hr
    by_cases hone : other = 1
    · subst hone
      cases hr
    · have hsame : firstLine.readers other = bothInside.readers other := by
        unfold firstLine
        dsimp only
        rw [System.iterate_readers hone]
        dsimp only
        rw [System.iterate_readers hone]
      rw [hsame, bothInside_readers hone hne] at hr
      cases hr
  obtain ⟨hrun, hwait⟩ := hfirst.typed hwait₂ 0x30 (r := ⟨10, 10, 0, []⟩) rfl
  have hboth : HarmlessRuns bothLines := (hrun.typed hwait 0x1C (r := ⟨10, 10, 1, [98]⟩) rfl).1
  exact ⟨rfl, by decide, read_line_results hboth⟩

/-- Two tasks read lines: task 1 pops A and the newline, task 2 pops B in between.  The string
that task 1 gets is the one of task 2. -/
theorem read_line_two_tasks :
    ∃ s res, run bootSystem [.enter 1 10, .enter 2 10, .key 0x1E, .iterate 1, .key 0x30,
        .iterate 2, .key 0x1C, .iterate 1] = some s ∧
      res ∈ s.results ∧ res.popped = [97, 10] ∧ StringAt res.buffer 0 [98, 10] ∧
      ¬ StringAt res.buffer 0 (editLine res.popped) := by
  have hall : ((run bootSystem [.enter 1 10, .enter 2 10, .key 0x1E, .iterate 1, .key 0x30,
      .iterate 2, .key 0x1C, .iterate 1]).map fun s => s.results.map fun res =>
        (res.popped, res.buffer 0, res.buffer 1, res.buffer 2)) =
      some [([97, 10], 98, 10, 0)] := by decide
  obtain ⟨s, hrun, hresults⟩ := Option.map_eq_some_iff.1 hall
  obtain ⟨res, hone, hbytes⟩ := List.map_eq_singleton_iff.1 hresults
  simp only [Prod.mk.injEq] at hbytes
  obtain ⟨hpopped, hfirst, hsecond, hend⟩ := hbytes
  have hline : editLine [97, 10] = [97, 10] := by decide
  refine ⟨s, res, hrun, by simp [hone], hpopped, ?_, fun hright => ?_⟩
  · exact ⟨hfirst, by decide, hsecond, by decide, hend⟩
  · rw [hpopped, hline] at hright
    exact absurd (hfirst.symm.trans hright.1) (by decide)

end BenmoshOS.Syscall
