import BenmoshOS.Klib.List
import BenmoshOS.Vmm.AddressSpace

/-!
# The scheduler: `kernel/task/task.c`

A task is named by the address of its `task_t`.  The scalar fields of the control
blocks are kept in the map `pcb`, the two embedded `list_head`s of each task in the
memory of links, and everything else (heap headers, stacks, page directories) in
the word memory `mem` that the heap and the virtual memory manager work on.  A
control block on the heap is the payload of a live pointer, which no function of
the heap writes to, so the split loses nothing.

The functions run with interrupts off (`irq_save` to `irq_restore`), so each is one
step.  A context switch ends the step: the state returned by `taskYield` is the one
in which control arrives in the next task, and the arguments of `switch_context`
are part of its result.  The value of `ESP` that `switch_context` stores into the
control block of the outgoing task is a parameter.

`released` is a record of what the reaper has done, for the benefit of the proofs:
the released tasks, each with the value `current_task_ptr` had at that moment.
-/

namespace BenmoshOS.Task

open Heap (Mem store kmalloc kfree kmallocAligned kfreeAligned)
open Klib Vmm

/-- `task_state_t`. -/
inductive TaskState where
  | ready
  | running
  | blocked
  | dead
  deriving DecidableEq, Repr

/-- The scalar fields of `task_t`. -/
structure Pcb where
  esp : Nat
  cr3 : Nat
  pid : Nat
  state : TaskState
  ticks : Nat
  stackBase : Nat
  stackTop : Nat
  deriving DecidableEq, Repr

/-- The `list_head` objects of the scheduler: the heads of the three lists and the
two nodes in each `task_t`. -/
inductive Node where
  | null
  | readyList
  | allTasksList
  | deadList
  | list (task : Nat)
  | allList (task : Nat)
  deriving DecidableEq, Repr

/-- `list_entry`: the task a node is embedded in.  The list heads are embedded in
none. -/
def Node.entry : Node → Nat
  | .list task => task
  | .allList task => task
  | _ => 0

/-- The kernel's state, as far as the scheduler is concerned. -/
structure Kernel where
  mem : Mem
  frames : Pmm.State
  pcb : Nat → Pcb
  links : Links Node
  currentTask : Nat
  taskCount : Nat
  nextPid : Nat
  /-- `g_tss.esp0`. -/
  esp0 : Nat
  /-- The tasks released so far, with `current_task_ptr` at that moment. -/
  released : List (Nat × Nat)

/-- `STACK_SIZE`. -/
def stackSize : Nat := 4096

/-- `sizeof(task_t)`. -/
def pcbSize : Nat := 44

/-! ## Fields of control blocks -/

/-- `task->state = state`. -/
def setState (pcb : Nat → Pcb) (task : Nat) (state : TaskState) : Nat → Pcb :=
  Function.update pcb task { pcb task with state := state }

/-- `task->ticks++`. -/
def tick (pcb : Nat → Pcb) (task : Nat) : Nat → Pcb :=
  Function.update pcb task { pcb task with ticks := wrap32 ((pcb task).ticks + 1) }

/-- `task->esp = esp`. -/
def setEsp (pcb : Nat → Pcb) (task esp : Nat) : Nat → Pcb :=
  Function.update pcb task { pcb task with esp := esp }

/-! ## `task_init` -/

/-- The kernel before `task_init`: heap and frame allocator are initialised, the
three list heads are empty. -/
def booted (img : Image) (map : List Pmm.MemorymapEntry) (mem : Mem) (pcb : Nat → Pcb)
    (links : Links Node) : Kernel :=
  { mem := Heap.heapInit mem
    frames := Pmm.pmmInit map img.kernelEnd
    pcb := pcb
    links := listInit (listInit (listInit links .readyList) .allTasksList) .deadList
    currentTask := 0
    taskCount := 0
    nextPid := 1
    esp0 := 0
    released := [] }

/-- `task_init`. -/
def taskInit (img : Image) (k : Kernel) : Kernel :=
  let links := listInit k.links (.list img.kernelTask)
  let links := listInit links (.allList img.kernelTask)
  { k with
    pcb := Function.update k.pcb img.kernelTask
      { esp := 0, cr3 := img.pageDirectory, pid := k.nextPid, state := .running, ticks := 0,
        stackBase := 0, stackTop := 0x90000 }
    links := listAddTail links (.allList img.kernelTask) .allTasksList
    currentTask := img.kernelTask
    taskCount := 1
    nextPid := wrap32 (k.nextPid + 1) }

/-! ## `task_create` -/

/-- `*(--sp) = v`. -/
def push (s : Mem × Nat) (v : Nat) : Mem × Nat :=
  (store s.1 (wrap32 (s.2 + 2 ^ 32 - 4)) v, wrap32 (s.2 + 2 ^ 32 - 4))

/-- What `task_create` pushes: the entry point, the dummy return address and the
trampoline, `EFLAGS` and the eight registers. -/
def initialStack (img : Image) (entryPoint : Nat) : List Nat :=
  [entryPoint, 0, img.taskExitTrampoline, 0x202, 0, 0, 0, 0, 0, 0, 0, 0]

/-- The rest of `task_create` once all three allocations have succeeded. -/
def startTask (img : Image) (k : Kernel) (newTask stack newPdir entryPoint : Nat) : Kernel :=
  let (mem, sp) := (initialStack img entryPoint).foldl push (k.mem, wrap32 (stack + stackSize))
  let links := listInit k.links (.list newTask)
  let links := listInit links (.allList newTask)
  let links := listAddTail links (.list newTask) .readyList
  let links := listAddTail links (.allList newTask) .allTasksList
  { k with
    mem := mem
    pcb := Function.update k.pcb newTask
      { esp := sp, cr3 := newPdir, pid := k.nextPid, state := .ready, ticks := 0,
        stackBase := stack, stackTop := wrap32 (stack + stackSize) }
    links := links
    taskCount := wrap32 (k.taskCount + 1)
    nextPid := wrap32 (k.nextPid + 1) }

/-- `task_create`: the new task, 0 for `NULL`. -/
def taskCreate (img : Image) (fuel : Nat) (k : Kernel) (entryPoint : Nat) :
    Exec (Kernel × Nat) := do
  let (mem, newTask) ← kmalloc fuel k.mem pcbSize
  if newTask = 0 then
    -- err_out
    return ({ k with mem := mem }, 0)
  else
    let (mem, stack) ← kmallocAligned fuel mem stackSize 16
    if stack = 0 then
      -- err_free_task
      let mem ← kfree fuel mem newTask
      return ({ k with mem := mem }, 0)
    else
      let (mem, frames, newPdir) := createAddressSpace img mem k.frames
      if newPdir = 0 then
        -- err_free_stack
        let mem ← kfreeAligned fuel mem stack
        let mem ← kfree fuel mem newTask
        return ({ k with mem := mem, frames := frames }, 0)
      else
        return (startTask img { k with mem := mem, frames := frames } newTask stack newPdir
          entryPoint, newTask)

/-! ## `reap_dead_tasks` -/

/-- The release of the address space in `reap_dead_tasks`, if it was created. -/
def releaseAddressSpace (img : Image) (k : Kernel) (task : Nat) : Exec Kernel :=
  if (k.pcb task).cr3 ≠ img.pageDirectory then do
    let (mem, frames) ← destroyAddressSpace img k.mem k.frames (k.pcb task).cr3
    return { k with mem := mem, frames := frames }
  else return k

/-- The release of the stack in `reap_dead_tasks`, if it was allocated. -/
def releaseStack (fuel : Nat) (k : Kernel) (task : Nat) : Exec Kernel :=
  if (k.pcb task).stackBase ≠ 0 then do
    let mem ← kfreeAligned fuel k.mem (k.pcb task).stackBase
    return { k with mem := mem }
  else return k

/-- The body of the loop of `reap_dead_tasks`. -/
def reapTask (img : Image) (fuel : Nat) (k : Kernel) (task : Nat) : Exec Kernel := do
  let links ← listDel .null k.links (.list task)
  let links ← listDel .null links (.allList task)
  let k ← releaseAddressSpace img { k with links := links } task
  let k ← releaseStack fuel k task
  let mem ← kfree fuel k.mem task
  return { k with
    mem := mem
    taskCount := wrap32 (k.taskCount + 2 ^ 32 - 1)
    released := (task, k.currentTask) :: k.released }

/-- One round of `list_for_each_safe(pos, n, &dead_list)`. -/
def reapBody (img : Image) (fuel : Nat) (s : Kernel × Node × Node) :
    Exec ((Kernel × Node × Node) ⊕ Kernel) :=
  let (k, pos, n) := s
  if pos = .deadList then .ret (.inr k)
  else do
    let k ← reapTask img fuel k pos.entry
    return .inl (k, n, (k.links n).next)

/-- `reap_dead_tasks`. -/
def reapDeadTasks (img : Image) (fuel : Nat) (k : Kernel) : Exec Kernel :=
  let pos := (k.links .deadList).next
  Exec.loop (reapBody img fuel) fuel (k, pos, (k.links pos).next)

/-! ## `task_yield`, `task_exit` and `task_kill` -/

/-- The arguments `switch_context` is called with, the first by the task whose
`esp` field it points to. -/
structure Switch where
  oldTask : Nat
  newEsp : Nat
  newCr3 : Nat
  deriving DecidableEq, Repr

/-- The part of `task_yield` behind the check for an empty `ready_list`.  The
outgoing task is queued when it is still running, and the first ready task becomes
the current one. -/
def switchToNext (k : Kernel) (savedEsp : Nat) : Exec (Kernel × Switch) := do
  let oldTask := k.currentTask
  let k := if (k.pcb oldTask).state = .running then
      { k with
        pcb := setState k.pcb oldTask .ready
        links := listAddTail k.links (.list oldTask) .readyList }
    else k
  let nextTask := (k.links .readyList).next.entry
  let links ← listDel .null k.links (.list nextTask)
  let pcb := tick (setState k.pcb nextTask .running) nextTask
  -- `switch_context` stores `ESP` through `&old_task->esp`
  return ({ k with
    pcb := setEsp pcb oldTask savedEsp
    links := links
    currentTask := nextTask
    esp0 := (pcb nextTask).stackTop }, ⟨oldTask, (pcb nextTask).esp, (pcb nextTask).cr3⟩)

/-- `task_yield`: the state in which the next task is entered, and the switch, if
there is one. -/
def taskYield (img : Image) (fuel : Nat) (k : Kernel) (savedEsp : Nat) :
    Exec (Kernel × Option Switch) := do
  let k ← reapDeadTasks img fuel k
  if listEmpty k.links .readyList then return (k, none)
  else
    let (k, switch) ← switchToNext k savedEsp
    return (k, some switch)

/-- `task_exit`.  The kernel task halts for ever, and so does a task that finds no
other to switch to. -/
def taskExit (img : Image) (fuel : Nat) (k : Kernel) (savedEsp : Nat) : Exec (Kernel × Switch) :=
  if k.currentTask = img.kernelTask then .spin
  else do
    let k := { k with
      pcb := setState k.pcb k.currentTask .dead
      links := listAddTail k.links (.list k.currentTask) .deadList }
    match ← taskYield img fuel k savedEsp with
    | (k, some switch) => return (k, switch)
    | (_, none) => .spin

/-- One round of the search of `task_kill` through `all_tasks_list`. -/
def searchBody (k : Kernel) (pid : Nat) (pos : Node) : Exec (Node ⊕ Option Nat) :=
  if pos = .allTasksList then .ret (.inr none)
  else if (k.pcb pos.entry).pid = pid ∧ (k.pcb pos.entry).state ≠ .dead then
    .ret (.inr (some pos.entry))
  else .ret (.inl (k.links pos).next)

/-- The task that `task_kill` finds: the first one with the given pid that is not
dead. -/
def findTask (fuel : Nat) (k : Kernel) (pid : Nat) : Exec (Option Nat) :=
  Exec.loop (searchBody k pid) fuel (k.links .allTasksList).next

/-- What `task_kill` does to a task other than the current one. -/
def killOther (k : Kernel) (task : Nat) : Exec Kernel := do
  let links ← listDel .null k.links (.list task)
  return { k with
    pcb := setState k.pcb task .dead
    links := listAddTail links (.list task) .deadList }

/-- `task_kill`.  A task that kills itself does not come back; the state is then the
one in which the next task is entered. -/
def taskKill (img : Image) (fuel : Nat) (k : Kernel) (pid savedEsp : Nat) : Exec (Kernel × Int) :=
  if pid ≤ 1 then .ret (k, -1)
  else do
    match ← findTask fuel k pid with
    | none => return (k, -1)
    | some task =>
        if task = k.currentTask then
          let (k, _) ← taskExit img fuel k savedEsp
          return (k, 0)
        else
          let k ← killOther k task
          return (k, 0)

/-- `task_get_count`. -/
def taskGetCount (k : Kernel) : Nat := k.taskCount

end BenmoshOS.Task
