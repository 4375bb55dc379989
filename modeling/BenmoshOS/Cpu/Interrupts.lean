import BenmoshOS.Lib.Effect
import BenmoshOS.Print.Console
import BenmoshOS.Task.Basic
import BenmoshOS.Vmm.Current

/-!
# The interrupt flag

The kernel protects its critical sections with `irq_save`, which returns the interrupt flag
and clears it, and `irq_restore`, which sets it back.  The functions of this file are those
of the heap, the paging code, the console and the scheduler with these two calls where the
source has them: every `return` of the source is one here, with the `irq_restore` in front
of it or without.

* `Call.Leaks` — the calls that leave through a `return` without `irq_restore`.
* `interrupts_kept_iff` — a call returns with the flag it was entered with exactly when the
  flag was clear, or the call does not leak.
-/

namespace BenmoshOS.Cpu

open Heap (Mem)
open Exec Print Vmm
open BenmoshOS.Task (Kernel pcbSize stackSize startTask findTask killOther)

/-- The machine: the interrupt flag, `CR3`, and the variables of kernel and console. -/
structure Machine where
  interrupts : Bool
  cr3 : Nat
  kernel : Kernel
  console : Console

/-- A call that may change the machine. -/
abbrev Run (α : Type) := StateT Machine Exec α

/-- `irq_save`. -/
def irqSave : Run Bool := fun s => .ret (s.interrupts, { s with interrupts := false })

/-- `irq_restore`. -/
def irqRestore (flags : Bool) : Run Unit := fun s => .ret ((), { s with interrupts := flags })

/-! ## Parts of the machine -/

/-- A statement on memory. -/
def onMemory {α : Type} (f : Mem → Exec (Mem × α)) : Run α := fun s => do
  let (mem, a) ← f s.kernel.mem
  return (a, { s with kernel := { s.kernel with mem := mem } })

/-- A statement on memory and the frame allocator. -/
def onFrames {α : Type} (f : Mem → Pmm.State → Exec (Mem × Pmm.State × α)) : Run α := fun s => do
  let (mem, frames, a) ← f s.kernel.mem s.kernel.frames
  return (a, { s with kernel := { s.kernel with mem := mem, frames := frames } })

/-- A statement on the variables of the scheduler. -/
def onKernel {α : Type} (f : Kernel → Exec (Kernel × α)) : Run α := fun s => do
  let (kernel, a) ← f s.kernel
  return (a, { s with kernel := kernel })

/-- A statement on the console. -/
def onConsole (f : Console → Console) : Run Unit := fun s =>
  .ret ((), { s with console := f s.console })

/-- A call without a result. -/
def void {α : Type} (x : Exec α) : Exec (α × Unit) := do return (← x, ())

/-! ## The heap -/

/-- `kmalloc`. -/
def kmalloc (fuel requestedSize : Nat) : Run Nat := do
  let flags ← irqSave
  let ptr ← onMemory (Heap.kmalloc fuel · requestedSize)
  if ptr ≠ 0 then
    irqRestore flags
    return ptr
  else
    irqRestore flags
    return 0

/-- `kfree`.  A panic does not return. -/
def kfree (fuel ptr : Nat) : Run Unit :=
  if ptr = 0 then return ()
  else do
    let flags ← irqSave
    onMemory fun m => void (Heap.kfree fuel m ptr)
    irqRestore flags

/-- `kmalloc_aligned`. -/
def kmallocAligned (fuel size alignment : Nat) : Run Nat :=
  if Heap.badAlignment alignment then return 0
  else do
    let rawPtr ← kmalloc fuel (wrap32 (size + wrap32 (alignment + 4)))
    if rawPtr = 0 then return 0
    else
      let alignedAddr := Heap.alignAddr rawPtr alignment
      onMemory fun m => .ret (Heap.store m (wrap32 (alignedAddr + 2 ^ 32 - 4)) rawPtr, ())
      return alignedAddr

/-- `kfree_aligned`. -/
def kfreeAligned (fuel ptr : Nat) : Run Unit :=
  if ptr = 0 then return ()
  else do
    let originalPtr ← onMemory fun m => .ret (m, m (wrap32 (ptr + 2 ^ 32 - 4)))
    kfree fuel originalPtr

/-! ## The console -/

/-- `print_char` behind `irq_save`. -/
def printCharBody (character : UInt8) (flags : Bool) : AnsiState → Run Unit
  | .idle =>
      if character = esc then
        onConsole fun c => { c with ansiState := .escape }
      else do
        onConsole fun c => c.write character
        irqRestore flags
  | .escape =>
      if character = 91 then
        onConsole fun c => { c with ansiState := .code, ansiCode := 0 }
      else do
        onConsole fun c => Console.write { c with ansiState := .idle } character
        irqRestore flags
  | .code =>
      if 48 ≤ character ∧ character ≤ 57 then do
        onConsole fun c =>
          { c with ansiCode := wrap32 (c.ansiCode * 10 + (character.toNat - 48)) }
        irqRestore flags
      else if character = 109 then do
        onConsole fun c => { c.applyAnsiColor c.ansiCode with ansiState := .idle }
        irqRestore flags
      else do
        onConsole fun c => Console.write { c with ansiState := .idle } character
        irqRestore flags

/-- `print_char`. -/
def printChar (character : UInt8) : Run Unit := do
  let flags ← irqSave
  let ansiState ← fun s => .ret (s.console.ansiState, s)
  printCharBody character flags ansiState

/-- `puts`, for the characters in front of the terminator. -/
def puts : List UInt8 → Run Unit
  | [] => return ()
  | character :: str => do
      printChar character
      puts str

/-- `screen_clear`. -/
def screenClear : Run Unit := do
  let flags ← irqSave
  onConsole Console.screenClear
  irqRestore flags

/-- `scroll_history_up`. -/
def scrollHistoryUp (lines : Nat) : Run Unit := do
  let flags ← irqSave
  onConsole fun c => c.scrollHistoryUp lines
  irqRestore flags

/-- `scroll_history_down`. -/
def scrollHistoryDown (lines : Nat) : Run Unit := do
  let flags ← irqSave
  onConsole fun c => c.scrollHistoryDown lines
  irqRestore flags

/-! ## Paging -/

/-- `vmm_map_page`.  Its two checks stand in front of `irq_save`, and panic. -/
def mapPage (img : Image) (phys virt flags : Nat) : Run Unit := do
  let irqState ← irqSave
  onFrames fun m frames => do
    let (m, frames) ← Vmm.mapPage img m frames phys virt flags
    return (m, frames, ())
  irqRestore irqState

/-- `vmm_unmap_page`. -/
def unmapPage (img : Image) (virt : Nat) : Run Unit := do
  let irqState ← irqSave
  let entry ← fun s => .ret (s.kernel.mem (img.pageDirectory + 4 * pdiOf virt), s)
  if entry % 2 = 0 then return ()
  else
    onMemory fun m => .ret (Vmm.unmapPage img m virt, ())
    irqRestore irqState

/-- `vmm_get_physical`. -/
def getPhysical (img : Image) (virt : Nat) : Run Nat := do
  let irqState ← irqSave
  let entry ← fun s => .ret (s.kernel.mem (img.pageDirectory + 4 * pdiOf virt), s)
  if entry % 2 = 0 then return 0
  else
    let physical ← onMemory fun m => .ret (Vmm.getPhysical img m virt)
    irqRestore irqState
    return physical

/-- `vmm_map_page_current`. -/
def mapPageCurrent (img : Image) (phys virt flags : Nat) : Run Unit := do
  let irqState ← irqSave
  let cr3 ← fun s => .ret (s.cr3, s)
  onFrames fun m frames => do
    let (m, frames) ← Vmm.mapPageCurrent img cr3 m frames phys virt flags
    return (m, frames, ())
  irqRestore irqState

/-- `vmm_map_page_in_pdir`. -/
def mapPageInPdir (img : Image) (pdirPhys phys virt flags : Nat) : Run Unit := do
  let irqState ← irqSave
  onFrames fun m frames => do
    let (m, frames) ← Vmm.mapPageInPdir img m frames pdirPhys phys virt flags
    return (m, frames, ())
  irqRestore irqState

/-- The bytes of a text. -/
def bytes (text : String) : List UInt8 := text.toList.map fun c => c.toNat.toUInt8

/-- What `vmm_create_address_space` prints when there is no frame. -/
def debugText : List UInt8 := bytes "[DEBUG] pmm_alloc_frame returned 0 (OOM or Frame 0)\n"

/-- `vmm_create_address_space`.  The text has no `%`, so `printf` prints it character by
character. -/
def createAddressSpace (img : Image) : Run Nat := do
  let frame ← fun s => .ret ((Pmm.allocFrame s.kernel.frames).2, s)
  if frame = 0 then
    let _ ← onFrames fun m frames => .ret (Vmm.createAddressSpace img m frames)
    puts debugText
    return 0
  else
    let flags ← irqSave
    let pdirPhys ← onFrames fun m frames => .ret (Vmm.createAddressSpace img m frames)
    irqRestore flags
    return pdirPhys

/-- `vmm_destroy_address_space`.  The check for `NULL` panics. -/
def destroyAddressSpace (img : Image) (pageDirectoryPhys : Nat) : Run Unit := do
  let flags ← irqSave
  onFrames fun m frames => do
    let (m, frames) ← Vmm.destroyAddressSpace img m frames pageDirectoryPhys
    return (m, frames, ())
  irqRestore flags

/-! ## The scheduler -/

/-- `task_create`. -/
def taskCreate (img : Image) (fuel entryPoint : Nat) : Run Nat := do
  let flags ← irqSave
  let newTask ← kmalloc fuel pcbSize
  if newTask = 0 then
    -- err_out
    irqRestore flags
    return 0
  else
    let stack ← kmallocAligned fuel stackSize 16
    if stack = 0 then
      -- err_free_task
      kfree fuel newTask
      irqRestore flags
      return 0
    else
      let newPdir ← createAddressSpace img
      if newPdir = 0 then
        -- err_free_stack
        kfreeAligned fuel stack
        kfree fuel newTask
        irqRestore flags
        return 0
      else
        onKernel fun k => .ret (startTask img k newTask stack newPdir entryPoint, ())
        irqRestore flags
        return newTask

/-- `task_kill`.  A task that kills itself enters `task_exit`, which does not return. -/
def taskKill (fuel pid : Nat) : Run Int := do
  let flags ← irqSave
  if pid ≤ 1 then
    irqRestore flags
    return -1
  else
    let found ← onKernel fun k => do return (k, ← findTask fuel k pid)
    match found with
    | none =>
        irqRestore flags
        return -1
    | some task =>
        let current ← fun s => .ret (s.kernel.currentTask, s)
        if task = current then fun _ => .spin
        else
          onKernel fun k => void (killOther k task)
          irqRestore flags
          return 0

/-! ## What keeps the flag -/

variable {α : Type}

theorem irqRestore_leaves (flags : Bool) : Leaves Machine.interrupts flags (irqRestore flags) := by
  intro s s' _ h
  rw [← (Prod.mk.inj (ret.inj h)).2]

/-- **Critical sections.**  A body that leaves the flag as `irq_save` returned it makes a
section that keeps the flag. -/
theorem section_keeps {body : Bool → Run α}
    (h : ∀ flags, Leaves Machine.interrupts flags (body flags)) :
    Keeps Machine.interrupts (irqSave >>= body) := by
  intro s s' a hret
  obtain ⟨flags, s₁, hsave, hbody⟩ := run_bind_eq_ret.1 hret
  rw [h flags s₁ s' a hbody, ← (Prod.mk.inj (ret.inj hsave)).1]

/-- The last `irq_restore` of a section, and the result behind it. -/
theorem restore_leaves (flags : Bool) (a : α) :
    Leaves Machine.interrupts flags (do irqRestore flags; return a) :=
  (irqRestore_leaves flags).then_keeps fun _ => keeps_pure a

/-- A statement on memory and frames does not touch the flag, and the console no more. -/
theorem onFrames_keeps (f : Mem → Pmm.State → Exec (Mem × Pmm.State × α)) :
    Keeps (fun s => (s.interrupts, s.console)) (onFrames f) := by
  intro s s' a hret
  obtain ⟨⟨mem, frames, b⟩, -, h⟩ := bind_eq_ret.1 hret
  rw [← (Prod.mk.inj (ret.inj h)).2]

/-! ### The heap and the address spaces -/

theorem kmalloc_keeps (fuel requestedSize : Nat) :
    Keeps Machine.interrupts (kmalloc fuel requestedSize) := by
  apply section_keeps
  intro flags
  refine leaves_bind fun ptr => leaves_ite ?_ ?_
  · exact restore_leaves flags ptr
  · exact restore_leaves flags 0

theorem kfree_keeps (fuel ptr : Nat) : Keeps Machine.interrupts (kfree fuel ptr) := by
  refine keeps_ite (keeps_pure ()) (section_keeps fun flags => ?_)
  exact leaves_bind fun _ => irqRestore_leaves flags

theorem mapPage_keeps (img : Image) (phys virt flags : Nat) :
    Keeps Machine.interrupts (mapPage img phys virt flags) :=
  section_keeps fun irqState => leaves_bind fun _ => irqRestore_leaves irqState

theorem mapPageCurrent_keeps (img : Image) (phys virt flags : Nat) :
    Keeps Machine.interrupts (mapPageCurrent img phys virt flags) :=
  section_keeps fun irqState => leaves_bind fun _ => leaves_bind fun _ => irqRestore_leaves irqState

theorem mapPageInPdir_keeps (img : Image) (pdirPhys phys virt flags : Nat) :
    Keeps Machine.interrupts (mapPageInPdir img pdirPhys phys virt flags) :=
  section_keeps fun irqState => leaves_bind fun _ => irqRestore_leaves irqState

theorem destroyAddressSpace_keeps (img : Image) (pageDirectoryPhys : Nat) :
    Keeps Machine.interrupts (destroyAddressSpace img pageDirectoryPhys) :=
  section_keeps fun flags => leaves_bind fun _ => irqRestore_leaves flags

/-! ### The scheduler -/

/-- Whatever its calls do to the flag, `task_create` restores it on all its paths. -/
theorem taskCreate_keeps (img : Image) (fuel entryPoint : Nat) :
    Keeps Machine.interrupts (taskCreate img fuel entryPoint) := by
  apply section_keeps
  intro flags
  refine leaves_bind fun newTask => leaves_ite (restore_leaves flags 0) ?_
  refine leaves_bind fun stack => leaves_ite ?_ ?_
  · exact leaves_bind fun _ => restore_leaves flags 0
  · refine leaves_bind fun newPdir => leaves_ite ?_ ?_
    · exact leaves_bind fun _ => leaves_bind fun _ => restore_leaves flags 0
    · exact leaves_bind fun _ => restore_leaves flags newTask

theorem taskKill_keeps (fuel pid : Nat) : Keeps Machine.interrupts (taskKill fuel pid) := by
  apply section_keeps
  intro flags
  refine leaves_ite (restore_leaves flags (-1)) (leaves_bind fun found => ?_)
  cases found with
  | none => exact restore_leaves flags (-1)
  | some task =>
      refine leaves_bind fun current => leaves_ite ?_ ?_
      · intro s s' a hret
        exact absurd hret (by simp)
      · exact leaves_bind fun _ => restore_leaves flags 0

/-! ## The returns without `irq_restore` -/

/-- The two early returns of the parser in `print_char`. -/
def printLeaks (state : AnsiState) (character : UInt8) : Prop :=
  state = .idle ∧ character = esc ∨ state = .escape ∧ character = 91

instance (state : AnsiState) (character : UInt8) : Decidable (printLeaks state character) :=
  inferInstanceAs (Decidable (_ ∨ _))

/-- A character of the text meets an early return. -/
def textLeaks : AnsiState → List UInt8 → Prop
  | _, [] => False
  | state, character :: str => printLeaks state character ∨ textLeaks (state.next character) str

instance instDecidableTextLeaks : (state : AnsiState) → (str : List UInt8) →
    Decidable (textLeaks state str)
  | _, [] => inferInstanceAs (Decidable False)
  | state, character :: str =>
      have := instDecidableTextLeaks (state.next character) str
      inferInstanceAs (Decidable (_ ∨ _))

/-- From the idle state it is the escape character that leaks. -/
theorem textLeaks_idle (str : List UInt8) : textLeaks .idle str ↔ esc ∈ str := by
  induction str with
  | nil => simp [textLeaks]
  | cons character str ih =>
      rw [textLeaks, List.mem_cons]
      by_cases hc : character = esc
      · simp [printLeaks, hc]
      · have hnext : AnsiState.next .idle character = .idle := if_neg hc
        rw [hnext, ih]
        simp [printLeaks, hc, Ne.symm hc]

/-- The flag a call leaves, given whether it leaks. -/
def flagAfter (leaks : Prop) [Decidable leaks] (flag : Bool) : Bool :=
  if leaks then false else flag

theorem onConsole_restore (f : Console → Console) (flags : Bool) (s : Machine) :
    (do onConsole f; irqRestore flags) s =
      .ret ((), { s with interrupts := flags, console := f s.console }) := rfl

/-- What `print_char` leaves: the console of the layer below, and the flag. -/
theorem printChar_run (character : UInt8) (s : Machine) :
    printChar character s = .ret ((), { s with
      interrupts := flagAfter (printLeaks s.console.ansiState character) s.interrupts
      console := s.console.printChar character }) := by
  have hsave : printChar character s =
      printCharBody character s.interrupts s.console.ansiState { s with interrupts := false } := rfl
  rw [hsave]
  unfold Console.printChar
  cases hstate : s.console.ansiState with
  | idle =>
      by_cases hc : character = esc
      · simp [printCharBody, printLeaks, hc, flagAfter, onConsole]
      · simp [printCharBody, printLeaks, hc, flagAfter, onConsole_restore]
  | escape =>
      by_cases hc : character = 91
      · simp [printCharBody, printLeaks, hc, flagAfter, onConsole]
      · simp [printCharBody, printLeaks, hc, flagAfter, onConsole_restore]
  | code =>
      have hflag : flagAfter (printLeaks .code character) s.interrupts = s.interrupts := by
        simp [flagAfter, printLeaks]
      rw [hflag]
      simp only [printCharBody]
      split
      · rw [onConsole_restore, hstate]
      · split
        · rw [onConsole_restore]
        · rw [onConsole_restore]

/-- What `puts` leaves. -/
theorem puts_run (str : List UInt8) (s : Machine) :
    puts str s = .ret ((), { s with
      interrupts := flagAfter (textLeaks s.console.ansiState str) s.interrupts
      console := str.foldl Console.printChar s.console }) := by
  induction str generalizing s with
  | nil => rfl
  | cons character str ih =>
      have hstep : puts (character :: str) s =
          (printChar character s >>= fun r => puts str r.2) := rfl
      rw [hstep, printChar_run, ret_bind, ih, printChar_ansiState]
      by_cases hc : printLeaks s.console.ansiState character
      · simp [flagAfter, textLeaks, hc]
      · simp [flagAfter, textLeaks, hc]

/-! ## The layer below

Without the flag the functions are those of the other files: what a call that returns does to
the kernel is what the function of the same name does there. -/

theorem onMemory_kernel {f : Mem → Exec (Mem × α)} {s s' : Machine} {a : α}
    (h : onMemory f s = .ret (a, s')) :
    ∃ mem, f s.kernel.mem = .ret (mem, a) ∧ s'.kernel = { s.kernel with mem := mem } := by
  obtain ⟨⟨mem, b⟩, hf, hs⟩ := bind_eq_ret.1 h
  obtain ⟨rfl, rfl⟩ := Prod.mk.inj (ret.inj hs)
  exact ⟨mem, hf, rfl⟩

theorem onFrames_kernel {f : Mem → Pmm.State → Exec (Mem × Pmm.State × α)} {s s' : Machine} {a : α}
    (h : onFrames f s = .ret (a, s')) :
    ∃ mem frames, f s.kernel.mem s.kernel.frames = .ret (mem, frames, a) ∧
      s'.kernel = { s.kernel with mem := mem, frames := frames } := by
  obtain ⟨⟨mem, frames, b⟩, hf, hs⟩ := bind_eq_ret.1 h
  obtain ⟨rfl, rfl⟩ := Prod.mk.inj (ret.inj hs)
  exact ⟨mem, frames, hf, rfl⟩

theorem restore_kernel {flags : Bool} {s s' : Machine} {a b : α}
    (h : (do irqRestore flags; return a : Run α) s = .ret (b, s')) :
    b = a ∧ s'.kernel = s.kernel := by
  have hret : ret (a, { s with interrupts := flags }) = ret (b, s') := h
  obtain ⟨rfl, rfl⟩ := Prod.mk.inj (ret.inj hret)
  exact ⟨rfl, rfl⟩

theorem kmalloc_kernel {fuel requestedSize : Nat} {s s' : Machine} {ptr : Nat}
    (h : kmalloc fuel requestedSize s = .ret (ptr, s')) :
    ∃ mem, Heap.kmalloc fuel s.kernel.mem requestedSize = .ret (mem, ptr) ∧
      s'.kernel = { s.kernel with mem := mem } := by
  obtain ⟨flags, s₀, hsave, h⟩ := run_bind_eq_ret.1 h
  obtain ⟨-, rfl⟩ := Prod.mk.inj (ret.inj hsave)
  obtain ⟨p, s₁, hmem, h⟩ := run_bind_eq_ret.1 h
  obtain ⟨mem, hrun, hs₁⟩ := onMemory_kernel hmem
  by_cases hp : p = 0
  · rw [if_neg (by simpa using hp)] at h
    obtain ⟨rfl, hs'⟩ := restore_kernel h
    exact ⟨mem, hp ▸ hrun, hs'.trans hs₁⟩
  · rw [if_pos hp] at h
    obtain ⟨rfl, hs'⟩ := restore_kernel h
    exact ⟨mem, hrun, hs'.trans hs₁⟩

theorem kfree_kernel {fuel ptr : Nat} {s s' : Machine} (h : kfree fuel ptr s = .ret ((), s')) :
    ∃ mem, Heap.kfree fuel s.kernel.mem ptr = .ret mem ∧
      s'.kernel = { s.kernel with mem := mem } := by
  by_cases hp : ptr = 0
  · rw [kfree, if_pos hp] at h
    have hs' : s = s' := (Prod.mk.inj (ret.inj h)).2
    rw [← hs', Heap.kfree, if_pos hp]
    exact ⟨s.kernel.mem, rfl, rfl⟩
  · rw [kfree, if_neg hp] at h
    obtain ⟨flags, s₀, hsave, h⟩ := run_bind_eq_ret.1 h
    obtain ⟨-, rfl⟩ := Prod.mk.inj (ret.inj hsave)
    obtain ⟨_, s₁, hmem, h⟩ := run_bind_eq_ret.1 h
    obtain ⟨mem, hrun, hs₁⟩ := onMemory_kernel hmem
    obtain ⟨mem', hfree, hm⟩ := bind_eq_ret.1 hrun
    obtain ⟨rfl, -⟩ := Prod.mk.inj (ret.inj hm)
    have hs' : s'.kernel = s₁.kernel := by rw [← (Prod.mk.inj (ret.inj h)).2]
    exact ⟨mem', hfree, hs'.trans hs₁⟩

theorem kmallocAligned_kernel {fuel size alignment : Nat} {s s' : Machine} {ptr : Nat}
    (h : kmallocAligned fuel size alignment s = .ret (ptr, s')) :
    ∃ mem, Heap.kmallocAligned fuel s.kernel.mem size alignment = .ret (mem, ptr) ∧
      s'.kernel = { s.kernel with mem := mem } := by
  by_cases hbad : Heap.badAlignment alignment = true
  · rw [kmallocAligned, if_pos hbad] at h
    obtain ⟨rfl, rfl⟩ := Prod.mk.inj (ret.inj h)
    exact ⟨s.kernel.mem, by simp [Heap.kmallocAligned, hbad], rfl⟩
  · rw [kmallocAligned, if_neg hbad] at h
    obtain ⟨rawPtr, s₁, hraw, h⟩ := run_bind_eq_ret.1 h
    obtain ⟨mem, hrun, hs₁⟩ := kmalloc_kernel hraw
    by_cases hp : rawPtr = 0
    · rw [if_pos hp] at h
      obtain ⟨rfl, rfl⟩ := Prod.mk.inj (ret.inj h)
      exact ⟨mem, by simp [Heap.kmallocAligned, hbad, hrun, hp], hs₁⟩
    · rw [if_neg hp] at h
      obtain ⟨_, s₂, hstore, h⟩ := run_bind_eq_ret.1 h
      obtain ⟨mem₂, hmem₂, hs₂⟩ := onMemory_kernel hstore
      obtain ⟨rfl, -⟩ := Prod.mk.inj (ret.inj hmem₂)
      obtain ⟨rfl, rfl⟩ := Prod.mk.inj (ret.inj h)
      rw [hs₁] at hs₂
      exact ⟨_, by simp [Heap.kmallocAligned, hbad, hrun, hp], hs₂⟩

theorem kfreeAligned_kernel {fuel ptr : Nat} {s s' : Machine}
    (h : kfreeAligned fuel ptr s = .ret ((), s')) :
    ∃ mem, Heap.kfreeAligned fuel s.kernel.mem ptr = .ret mem ∧
      s'.kernel = { s.kernel with mem := mem } := by
  by_cases hp : ptr = 0
  · rw [kfreeAligned, if_pos hp] at h
    have hs' : s = s' := (Prod.mk.inj (ret.inj h)).2
    rw [← hs', Heap.kfreeAligned, if_pos hp]
    exact ⟨s.kernel.mem, rfl, rfl⟩
  · rw [kfreeAligned, if_neg hp] at h
    obtain ⟨originalPtr, s₁, hread, h⟩ := run_bind_eq_ret.1 h
    obtain ⟨rfl, rfl⟩ := Prod.mk.inj (ret.inj hread)
    rw [Heap.kfreeAligned, if_neg hp]
    exact kfree_kernel h

theorem createAddressSpace_kernel {img : Image} {s s' : Machine} {pdirPhys : Nat}
    (h : createAddressSpace img s = .ret (pdirPhys, s')) :
    ∃ mem frames, Vmm.createAddressSpace img s.kernel.mem s.kernel.frames =
        (mem, frames, pdirPhys) ∧
      s'.kernel = { s.kernel with mem := mem, frames := frames } := by
  obtain ⟨frame, s₀, hread, h⟩ := run_bind_eq_ret.1 h
  obtain ⟨hframe, rfl⟩ := Prod.mk.inj (ret.inj hread)
  by_cases hzero : frame = 0
  · rw [if_pos hzero] at h
    obtain ⟨a, s₁, hs₁, h⟩ := run_bind_eq_ret.1 h
    obtain ⟨mem, frames, hrun, hs₁⟩ := onFrames_kernel hs₁
    obtain ⟨_, s₂, hs₂, h⟩ := run_bind_eq_ret.1 h
    rw [puts_run] at hs₂
    obtain ⟨_, rfl⟩ := Prod.mk.inj (ret.inj hs₂)
    obtain ⟨rfl, rfl⟩ := Prod.mk.inj (ret.inj h)
    have hal : frame = a := by rw [← hframe, createAddressSpace_frames (ret.inj hrun)]
    exact ⟨mem, frames, by rw [ret.inj hrun, ← hal, hzero], hs₁⟩
  · rw [if_neg hzero] at h
    obtain ⟨flags, s₁, hs₁, h⟩ := run_bind_eq_ret.1 h
    obtain ⟨_, rfl⟩ := Prod.mk.inj (ret.inj hs₁)
    obtain ⟨a, s₂, hs₂, h⟩ := run_bind_eq_ret.1 h
    obtain ⟨mem, frames, hrun, hs₂⟩ := onFrames_kernel hs₂
    obtain ⟨hpdir, hs'⟩ := restore_kernel h
    exact ⟨mem, frames, by rw [hpdir, ret.inj hrun], hs'.trans hs₂⟩

/-- `task_create` with the flag refines `task_create` of the scheduler. -/
theorem taskCreate_kernel {img : Image} {fuel entryPoint : Nat} {s s' : Machine} {t : Nat}
    (h : taskCreate img fuel entryPoint s = .ret (t, s')) :
    Task.taskCreate img fuel s.kernel entryPoint = .ret (s'.kernel, t) := by
  obtain ⟨flags, s₀, hsave, h⟩ := run_bind_eq_ret.1 h
  obtain ⟨-, rfl⟩ := Prod.mk.inj (ret.inj hsave)
  obtain ⟨newTask, s₁, htask, h⟩ := run_bind_eq_ret.1 h
  obtain ⟨mem₁, htask, hs₁⟩ := kmalloc_kernel htask
  by_cases hnew : newTask = 0
  · rw [if_pos hnew] at h
    obtain ⟨rfl, hs'⟩ := restore_kernel h
    rw [hs', hs₁]
    simp only [Task.taskCreate, htask, ret_bind, if_pos hnew, pure_eq]
  · rw [if_neg hnew] at h
    obtain ⟨stack, s₂, hstack, h⟩ := run_bind_eq_ret.1 h
    obtain ⟨mem₂, hstack, hs₂⟩ := kmallocAligned_kernel hstack
    rw [hs₁] at hstack hs₂
    by_cases hst : stack = 0
    · rw [if_pos hst] at h
      obtain ⟨_, s₃, hfree, h⟩ := run_bind_eq_ret.1 h
      obtain ⟨mem₃, hfree, hs₃⟩ := kfree_kernel hfree
      obtain ⟨rfl, hs'⟩ := restore_kernel h
      rw [hs₂] at hfree hs₃
      rw [hs', hs₃]
      simp only [Task.taskCreate, htask, hstack, hfree, ret_bind, if_neg hnew, if_pos hst, pure_eq]
    · rw [if_neg hst] at h
      obtain ⟨newPdir, s₃, hspace, h⟩ := run_bind_eq_ret.1 h
      obtain ⟨mem₃, frames, hpdir, hs₃⟩ := createAddressSpace_kernel hspace
      rw [hs₂] at hpdir hs₃
      by_cases hpd : newPdir = 0
      · rw [if_pos hpd] at h
        obtain ⟨_, s₄, hfree₄, h⟩ := run_bind_eq_ret.1 h
        obtain ⟨mem₄, hfree₄, hs₄⟩ := kfreeAligned_kernel hfree₄
        obtain ⟨_, s₅, hfree₅, h⟩ := run_bind_eq_ret.1 h
        obtain ⟨mem₅, hfree₅, hs₅⟩ := kfree_kernel hfree₅
        obtain ⟨rfl, hs'⟩ := restore_kernel h
        rw [hs₃] at hfree₄ hs₄
        rw [hs₄] at hfree₅ hs₅
        rw [hs', hs₅]
        simp only [Task.taskCreate, htask, hstack, hpdir, hfree₄, hfree₅, ret_bind, if_neg hnew,
          if_neg hst, if_pos hpd, pure_eq]
      · rw [if_neg hpd] at h
        obtain ⟨_, s₄, hstart, h⟩ := run_bind_eq_ret.1 h
        obtain ⟨-, rfl⟩ := Prod.mk.inj (ret.inj hstart)
        obtain ⟨rfl, hs'⟩ := restore_kernel h
        rw [hs']
        simp only [Task.taskCreate, htask, hstack, hpdir, hs₃, ret_bind, if_neg hnew, if_neg hst,
          if_neg hpd, pure_eq]

/-- `task_kill` of another task with the flag refines `task_kill` of the scheduler. -/
theorem taskKill_kernel {img : Image} {fuel pid savedEsp : Nat} {s s' : Machine} {r : Int}
    (h : taskKill fuel pid s = .ret (r, s')) :
    Task.taskKill img fuel s.kernel pid savedEsp = .ret (s'.kernel, r) := by
  rw [Task.taskKill]
  obtain ⟨flags, s₀, hsave, h⟩ := run_bind_eq_ret.1 h
  obtain ⟨-, rfl⟩ := Prod.mk.inj (ret.inj hsave)
  by_cases hpid : pid ≤ 1
  · rw [if_pos hpid] at h ⊢
    obtain ⟨rfl, hs'⟩ := restore_kernel h
    rw [hs']
  · rw [if_neg hpid] at h ⊢
    obtain ⟨found, s₁, hsearch, h⟩ := run_bind_eq_ret.1 h
    obtain ⟨⟨k, b⟩, hsearch, hs₁⟩ := bind_eq_ret.1 hsearch
    obtain ⟨found', hfind, hk⟩ := bind_eq_ret.1 hsearch
    obtain ⟨rfl, rfl⟩ := Prod.mk.inj (ret.inj hk)
    obtain ⟨rfl, rfl⟩ := Prod.mk.inj (ret.inj hs₁)
    rw [hfind, ret_bind]
    cases found' with
    | none =>
        obtain ⟨rfl, hs'⟩ := restore_kernel h
        rw [hs', pure_eq]
    | some task =>
        obtain ⟨current, s₂, hcur, h⟩ := run_bind_eq_ret.1 h
        obtain ⟨rfl, rfl⟩ := Prod.mk.inj (ret.inj hcur)
        by_cases hself : task = s.kernel.currentTask
        · rw [if_pos hself] at h
          exact absurd h (by simp)
        · rw [if_neg hself] at h
          simp only [if_neg hself]
          obtain ⟨_, s₃, hmark, h⟩ := run_bind_eq_ret.1 h
          obtain ⟨⟨k, u⟩, hmark, hs₃⟩ := bind_eq_ret.1 hmark
          obtain ⟨k', hkill, hk⟩ := bind_eq_ret.1 hmark
          obtain ⟨rfl, -⟩ := Prod.mk.inj (ret.inj hk)
          obtain ⟨-, rfl⟩ := Prod.mk.inj (ret.inj hs₃)
          obtain ⟨rfl, hs'⟩ := restore_kernel h
          rw [hkill, ret_bind, hs', pure_eq]

/-! ## All calls -/

/-- A call of one of the functions, with its arguments. -/
inductive Call where
  | kmalloc (requestedSize : Nat)
  | kfree (ptr : Nat)
  | mapPage (phys virt flags : Nat)
  | unmapPage (virt : Nat)
  | getPhysical (virt : Nat)
  | createAddressSpace
  | destroyAddressSpace (pageDirectoryPhys : Nat)
  | mapPageCurrent (phys virt flags : Nat)
  | mapPageInPdir (pdirPhys phys virt flags : Nat)
  | printChar (character : UInt8)
  | screenClear
  | scrollHistoryUp (lines : Nat)
  | scrollHistoryDown (lines : Nat)
  | taskCreate (entryPoint : Nat)
  | taskKill (pid : Nat)
  | puts (str : List UInt8)

/-- A call whose result is dropped. -/
def drop (x : Run α) : Run Unit := do
  let _ ← x
  return ()

/-- The call. -/
def Call.run (img : Image) (fuel : Nat) : Call → Run Unit
  | .kmalloc requestedSize => drop (Cpu.kmalloc fuel requestedSize)
  | .kfree ptr => Cpu.kfree fuel ptr
  | .mapPage phys virt flags => Cpu.mapPage img phys virt flags
  | .unmapPage virt => Cpu.unmapPage img virt
  | .getPhysical virt => drop (Cpu.getPhysical img virt)
  | .createAddressSpace => drop (Cpu.createAddressSpace img)
  | .destroyAddressSpace pageDirectoryPhys => Cpu.destroyAddressSpace img pageDirectoryPhys
  | .mapPageCurrent phys virt flags => Cpu.mapPageCurrent img phys virt flags
  | .mapPageInPdir pdirPhys phys virt flags => Cpu.mapPageInPdir img pdirPhys phys virt flags
  | .printChar character => Cpu.printChar character
  | .screenClear => Cpu.screenClear
  | .scrollHistoryUp lines => Cpu.scrollHistoryUp lines
  | .scrollHistoryDown lines => Cpu.scrollHistoryDown lines
  | .taskCreate entryPoint => drop (Cpu.taskCreate img fuel entryPoint)
  | .taskKill pid => drop (Cpu.taskKill fuel pid)
  | .puts str => Cpu.puts str

/-- The call leaves through a `return` that has no `irq_restore` in front of it. -/
def Call.Leaks (img : Image) (s : Machine) : Call → Prop
  | .unmapPage virt => s.kernel.mem (img.pageDirectory + 4 * pdiOf virt) % 2 = 0
  | .getPhysical virt => s.kernel.mem (img.pageDirectory + 4 * pdiOf virt) % 2 = 0
  | .createAddressSpace =>
      (Pmm.allocFrame s.kernel.frames).2 = 0 ∧ s.console.ansiState = .escape
  | .printChar character => printLeaks s.console.ansiState character
  | .puts str => textLeaks s.console.ansiState str
  | _ => False

/-- What a call does to the flag, given whether it leaks. -/
def FlagRule (leaks : Prop) (s s' : Machine) : Prop :=
  leaks ∧ s'.interrupts = false ∨ ¬ leaks ∧ s'.interrupts = s.interrupts

variable {s s' : Machine}

theorem flagRule_of_keeps {x : Run Unit} (h : Keeps Machine.interrupts x)
    (hret : x s = .ret ((), s')) : FlagRule False s s' :=
  Or.inr ⟨id, h s s' () hret⟩

theorem flagRule_of_flagAfter {leaks : Prop} [Decidable leaks]
    (h : s'.interrupts = flagAfter leaks s.interrupts) : FlagRule leaks s s' := by
  rw [flagAfter] at h
  split at h
  · exact Or.inl ⟨‹_›, h⟩
  · exact Or.inr ⟨‹_›, h⟩

theorem drop_keeps {x : Run α} (h : Keeps Machine.interrupts x) :
    Keeps Machine.interrupts (drop x) := h.bind fun _ => keeps_pure ()

theorem ret_of_drop {x : Run α} (h : drop x s = .ret ((), s')) : ∃ a, x s = .ret (a, s') := by
  obtain ⟨a, s₁, hx, hs⟩ := run_bind_eq_ret.1 h
  have hs₁ : s₁ = s' := (Prod.mk.inj (ret.inj hs)).2
  exact ⟨a, hs₁ ▸ hx⟩

theorem unmapPage_absent {img : Image} {virt : Nat}
    (h : s.kernel.mem (img.pageDirectory + 4 * pdiOf virt) % 2 = 0) :
    unmapPage img virt s = .ret ((), { s with interrupts := false }) :=
  congrFun (if_pos h) _

theorem unmapPage_flag {img : Image} {virt : Nat} (h : unmapPage img virt s = .ret ((), s')) :
    FlagRule (s.kernel.mem (img.pageDirectory + 4 * pdiOf virt) % 2 = 0) s s' := by
  by_cases hentry : s.kernel.mem (img.pageDirectory + 4 * pdiOf virt) % 2 = 0
  · have hrun := unmapPage_absent hentry
    rw [h] at hrun
    rw [(Prod.mk.inj (ret.inj hrun)).2]
    exact Or.inl ⟨hentry, rfl⟩
  · have hrun : unmapPage img virt s = .ret ((), { s with
        kernel := { s.kernel with mem := Vmm.unmapPage img s.kernel.mem virt } }) :=
      congrFun (if_neg hentry) _
    rw [h] at hrun
    rw [(Prod.mk.inj (ret.inj hrun)).2]
    exact Or.inr ⟨hentry, rfl⟩

theorem getPhysical_flag {img : Image} {virt physical : Nat}
    (h : getPhysical img virt s = .ret (physical, s')) :
    FlagRule (s.kernel.mem (img.pageDirectory + 4 * pdiOf virt) % 2 = 0) s s' := by
  by_cases hentry : s.kernel.mem (img.pageDirectory + 4 * pdiOf virt) % 2 = 0
  · have hrun : getPhysical img virt s = .ret (0, { s with interrupts := false }) :=
      congrFun (if_pos hentry) _
    rw [h] at hrun
    rw [(Prod.mk.inj (ret.inj hrun)).2]
    exact Or.inl ⟨hentry, rfl⟩
  · have hrun : getPhysical img virt s = .ret ((Vmm.getPhysical img s.kernel.mem virt).2, { s with
        kernel := { s.kernel with mem := (Vmm.getPhysical img s.kernel.mem virt).1 } }) :=
      congrFun (if_neg hentry) _
    rw [h] at hrun
    rw [(Prod.mk.inj (ret.inj hrun)).2]
    exact Or.inr ⟨hentry, rfl⟩

/-- The text begins with a bracket and has no escape character. -/
theorem textLeaks_debugText (state : AnsiState) :
    textLeaks state debugText ↔ state = .escape := by
  cases state with
  | idle => decide
  | escape => decide
  | code => decide

theorem createAddressSpace_flag {img : Image} {pdirPhys : Nat}
    (h : createAddressSpace img s = .ret (pdirPhys, s')) :
    FlagRule ((Pmm.allocFrame s.kernel.frames).2 = 0 ∧ s.console.ansiState = .escape) s s' := by
  obtain ⟨frame, s₀, hread, hbranch⟩ := run_bind_eq_ret.1 h
  obtain ⟨hframe, rfl⟩ := Prod.mk.inj (ret.inj hread)
  rw [hframe]
  by_cases hzero : frame = 0
  · rw [if_pos hzero] at hbranch
    obtain ⟨_, s₁, hframes, hputs⟩ := run_bind_eq_ret.1 hbranch
    obtain ⟨_, s₂, hputs, hret⟩ := run_bind_eq_ret.1 hputs
    obtain ⟨hflag₁, hconsole₁⟩ := Prod.mk.inj (onFrames_keeps _ s s₁ _ hframes)
    rw [puts_run] at hputs
    have hs₂ := (Prod.mk.inj (ret.inj hputs)).2
    have hs' : s₂ = s' := (Prod.mk.inj (ret.inj hret)).2
    have hflag : FlagRule (textLeaks s.console.ansiState debugText) s s' := by
      apply flagRule_of_flagAfter
      rw [← hs', ← hs₂, ← hflag₁, ← hconsole₁]
    rw [textLeaks_debugText] at hflag
    rwa [and_iff_right hzero]
  · rw [if_neg hzero] at hbranch
    refine Or.inr ⟨fun hleak => hzero hleak.1, ?_⟩
    have hkeeps : Keeps Machine.interrupts (do
        let flags ← irqSave
        let pdirPhys ← onFrames fun m frames => .ret (Vmm.createAddressSpace img m frames)
        irqRestore flags
        return pdirPhys) :=
      section_keeps fun flags => leaves_bind fun pdirPhys => restore_leaves flags pdirPhys
    exact hkeeps s s' pdirPhys hbranch

theorem onConsole_keeps (f : Console → Console) :
    Keeps Machine.interrupts (do
      let flags ← irqSave
      onConsole f
      irqRestore flags) :=
  section_keeps fun flags => leaves_bind fun _ => irqRestore_leaves flags

/-- The flag after every call. -/
theorem Call.flag {img : Image} {fuel : Nat} (c : Call) (h : c.run img fuel s = .ret ((), s')) :
    FlagRule (c.Leaks img s) s s' := by
  cases c with
  | kmalloc requestedSize => exact flagRule_of_keeps (drop_keeps (kmalloc_keeps _ _)) h
  | kfree ptr => exact flagRule_of_keeps (kfree_keeps fuel ptr) h
  | mapPage phys virt flags => exact flagRule_of_keeps (mapPage_keeps img phys virt flags) h
  | unmapPage virt => exact unmapPage_flag h
  | getPhysical virt =>
      obtain ⟨physical, hget⟩ := ret_of_drop h
      exact getPhysical_flag hget
  | createAddressSpace =>
      obtain ⟨pdirPhys, hcreate⟩ := ret_of_drop h
      exact createAddressSpace_flag hcreate
  | destroyAddressSpace pageDirectoryPhys =>
      exact flagRule_of_keeps (destroyAddressSpace_keeps img pageDirectoryPhys) h
  | mapPageCurrent phys virt flags =>
      exact flagRule_of_keeps (mapPageCurrent_keeps img phys virt flags) h
  | mapPageInPdir pdirPhys phys virt flags =>
      exact flagRule_of_keeps (mapPageInPdir_keeps img pdirPhys phys virt flags) h
  | printChar character =>
      have hs' := (printChar_run character s).symm.trans h
      show FlagRule (printLeaks s.console.ansiState character) s s'
      apply flagRule_of_flagAfter
      rw [← (Prod.mk.inj (ret.inj hs')).2]
  | screenClear => exact flagRule_of_keeps (onConsole_keeps _) h
  | scrollHistoryUp lines => exact flagRule_of_keeps (onConsole_keeps _) h
  | scrollHistoryDown lines => exact flagRule_of_keeps (onConsole_keeps _) h
  | taskCreate entryPoint => exact flagRule_of_keeps (drop_keeps (taskCreate_keeps _ _ _)) h
  | taskKill pid => exact flagRule_of_keeps (drop_keeps (taskKill_keeps _ _)) h
  | puts str =>
      have hs' := (puts_run str s).symm.trans h
      show FlagRule (textLeaks s.console.ansiState str) s s'
      apply flagRule_of_flagAfter
      rw [← (Prod.mk.inj (ret.inj hs')).2]

/-- **The interrupt flag.**  A call that returns does so with the flag it was entered with
exactly when the flag was clear or the call does not leave through one of the returns
without `irq_restore`. -/
theorem interrupts_kept_iff (img : Image) (fuel : Nat) (c : Call) (s s' : Machine)
    (h : c.run img fuel s = .ret ((), s')) :
    s'.interrupts = s.interrupts ↔ (s.interrupts = true → ¬ c.Leaks img s) := by
  rcases c.flag h with ⟨hleak, hflag⟩ | ⟨hleak, hflag⟩
  · rw [hflag]
    cases hs : s.interrupts with
    | false => simp
    | true => simp [hleak]
  · simp [hflag, hleak]

/-- A machine with interrupts on: paging, heap and scheduler are initialised, nothing is
printed. -/
def idleMachine : Machine where
  interrupts := true
  cr3 := smallImage.pageDirectory
  kernel := Task.taskInit smallImage
    (Task.booted smallImage oneFrame smallMemory (fun _ => ⟨0, 0, 0, .ready, 0, 0, 0⟩)
      (fun _ => ⟨.null, .null⟩))
  console :=
    { maxHistoryRows := 25, lineBuffer := fun _ _ => 0, lineLengths := fun _ => 0
      absoluteWriteRow := 0, writeCol := 0, viewStartRow := 0, currentColor := 0x0F
      ansiState := .idle, ansiCode := 0, videoMemory := fun _ => 0, cursor := 0 }

theorem idleMachine_mem : idleMachine.kernel.mem = Heap.heapInit smallMemory := rfl

theorem interrupts_kept_iff_letter : ∃ s',
    (Call.printChar 65).run smallImage 1 idleMachine = .ret ((), s') ∧
    s'.interrupts = idleMachine.interrupts := by
  have hleak : ¬ printLeaks .idle 65 := by decide
  exact ⟨_, printChar_run 65 idleMachine, (interrupts_kept_iff smallImage 1 (.printChar 65)
    idleMachine _ (printChar_run 65 idleMachine)).2 fun _ => hleak⟩

/-- `vmm_unmap_page` of a page without a table, and `puts` of a colour sequence, return with
interrupts off. -/
theorem interrupts_lost : ∃ s₁ s₂, idleMachine.interrupts = true ∧
    (Call.unmapPage 0x800000).run smallImage 1 idleMachine = .ret ((), s₁) ∧
    s₁.interrupts = false ∧
    (Call.puts (esc :: bytes "[31m")).run smallImage 1 idleMachine = .ret ((), s₂) ∧
    s₂.interrupts = false := by
  have hentry : idleMachine.kernel.mem (smallImage.pageDirectory + 4 * pdiOf 0x800000) = 0 := by
    have habsent : smallMemory (smallImage.pageDirectory + 4 * pdiOf 0x800000) = 0 :=
      vmmInit_of_ne paged_smallImage (by decide) (by decide) (by decide) (by decide) (by decide)
    rw [idleMachine_mem, Heap.heapInit, Heap.store, Function.update_of_ne (by decide), Heap.store,
      Function.update_of_ne (by decide), habsent]
  have hunmap := @unmapPage_absent idleMachine smallImage 0x800000 (by rw [hentry])
  have hputs : textLeaks .idle (esc :: bytes "[31m") := (textLeaks_idle _).2 List.mem_cons_self
  exact ⟨_, _, rfl, hunmap, rfl, puts_run _ idleMachine, @if_pos _ _ hputs Bool false true⟩

end BenmoshOS.Cpu
