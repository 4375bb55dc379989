import BenmoshOS.Lib.X86
import BenmoshOS.Task.Runs

/-!
# The context switch: `kernel/task/task.asm`

`switch_context(current_esp_ptr, new_esp, new_cr3)` saves the registers of the
outgoing task, loads the page directory and the stack of the incoming one, and
returns into it.  The code is run instruction by instruction on a machine whose
registers hold anything on entry; the arguments are where the C calling convention
puts them.

The code loads `new_cr3` into `EAX` and overwrites it in the next instruction; what is
compared with `CR3`, and loaded, is `ECX`, which the caller has not set.  So
`CR3` ends up as whatever `ECX` held on entry (`switchContext_cr3`), and follows the
current task exactly at the switches where that happens to be `new_cr3`.
-/

namespace BenmoshOS.Task

open X86 Exec

/-- `switch_context`, with the label `.skip_cr3_flush` at index 10. -/
def switchContextCode : List Instr :=
  [ .pushfd,
    .pushad,
    .load .eax .esp 40,
    .store .eax .esp,
    .load .edx .esp 44,
    .load .eax .esp 48,
    .movFromCr3 .eax,
    .cmp .eax .ecx,
    .je 10,
    .movToCr3 .ecx,
    .mov .esp .edx,
    .popad,
    .popfd,
    .ret ]

/-- The argument `current_esp_ptr` on entry. -/
def currentEspPtr (m : Machine) : BitVec 32 := m.read (m.esp + 4)

/-- The argument `new_esp` on entry. -/
def newEsp (m : Machine) : BitVec 32 := m.read (m.esp + 8)

/-- The argument `new_cr3` on entry. -/
def newCr3 (m : Machine) : BitVec 32 := m.read (m.esp + 12)

/-- The instructions in front of the conditional jump: the registers are saved, the
arguments loaded, and `CR3` is compared with `ECX`. -/
def saveCode : List Instr := switchContextCode.take 8

/-- The instructions from the label `.skip_cr3_flush` up to the return. -/
def restoreCode : List Instr := (switchContextCode.drop 10).take 3

/-- Saving the registers touches neither `ECX` nor `CR3`, and the comparison is
between the two. -/
theorem saveCode_spec (m : Machine) : (block saveCode m).ecx = m.ecx ∧
    (block saveCode m).cr3 = m.cr3 ∧
    (block saveCode m).eflags.getLsbD zf = decide (m.cr3 = m.ecx) := by
  have hecx : (block (switchContextCode.take 6) m).get .ecx = m.get .ecx := block_get (by decide) m
  have hcr3 : (block (switchContextCode.take 6) m).cr3 = m.cr3 := block_cr3 (by decide) m
  have hsplit : saveCode = switchContextCode.take 6 ++ [.movFromCr3 .eax, .cmp .eax .ecx] := rfl
  rw [hsplit, block_append]
  -- what the first six instructions have done to the rest of the machine does not matter
  generalize block (switchContextCode.take 6) m = b at hecx hcr3 ⊢
  refine ⟨hecx, hcr3, ?_⟩
  rw [← hcr3]
  replace hecx : b.ecx = m.ecx := hecx
  rw [← hecx]
  exact getLsbD_subFlags_zf b.eflags b.cr3 b.ecx

/-- **What `switch_context` loads.**  It returns from every machine state, with `CR3`
equal to what `ECX` was on entry. -/
theorem switchContext_cr3 (m : Machine) {fuel : Nat} (hf : 14 ≤ fuel) :
    ∃ m', run switchContextCode fuel m = .ret m' ∧ m'.cr3 = m.ecx := by
  obtain ⟨fuel, rfl⟩ : ∃ k, fuel = k + 14 := ⟨fuel - 14, by omega⟩
  obtain ⟨hecx, hcr3, hzf⟩ := saveCode_spec m
  -- from the label on the code is straight, and the return leaves the loop
  have hend : ∀ k m, ∃ m', Exec.loop (fetch switchContextCode) (k + 4) (10, m) = .ret m' ∧
      m'.cr3 = m.cr3 := fun k m => by
    refine ⟨Instr.eval .ret (block restoreCode m), ?_, ?_⟩
    · rw [show k + 4 = k + 1 + restoreCode.length from rfl,
        loop_block restoreCode (by decide) (by decide)]
      exact Exec.loop_leave rfl
    · rw [eval_cr3 _ rfl, block_cr3 (by decide)]
  rw [run, show fuel + 14 = fuel + 6 + saveCode.length from rfl,
    loop_block saveCode (by decide) (by decide)]
  have hpc : 0 + saveCode.length = 8 := rfl
  rw [hpc]
  by_cases heq : m.cr3 = m.ecx
  · -- the jump is taken, and nothing is loaded
    have hjump : fetch switchContextCode (8, block saveCode m) =
        .ret (.inl (10, block saveCode m)) := by
      simp only [fetch, hzf, heq, decide_true]
      rfl
    obtain ⟨m', hret, hm'⟩ := hend (fuel + 1) (block saveCode m)
    rw [Exec.loop_again hjump]
    exact ⟨m', hret, by rw [hm', hcr3, heq]⟩
  · have hnext : fetch switchContextCode (8, block saveCode m) =
        .ret (.inl (9, block saveCode m)) := by
      simp only [fetch, hzf, heq, decide_false]
      rfl
    have hload : fetch switchContextCode (9, block saveCode m) =
        .ret (.inl (10, { block saveCode m with cr3 := (block saveCode m).ecx })) := rfl
    obtain ⟨m', hret, hm'⟩ := hend fuel { block saveCode m with cr3 := (block saveCode m).ecx }
    rw [Exec.loop_again hnext, Exec.loop_again hload]
    exact ⟨m', hret, by rw [hm', hecx]⟩

/-! ## Runs of the scheduler on the machine -/

/-- The states reached by creating tasks and yielding, with the value of `CR3` and,
for each switch so far, the last one first, what `ECX` was on entry to
`switch_context` and what `new_cr3` was.  The machine that calls `switch_context` may
hold anything in its registers; on its stack are the arguments `task_yield` passes. -/
inductive CpuReaches (img : Image) (map : List Pmm.MemorymapEntry) :
    Kernel → BitVec 32 → List (BitVec 32 × BitVec 32) → Prop
  | init (mem : Heap.Mem) (pcb : Nat → Pcb) (links : Links Node) :
      CpuReaches img map (taskInit img (booted img map mem pcb links))
        (BitVec.ofNat 32 img.pageDirectory) []
  | create {k k' : Kernel} {cr3 : BitVec 32} {switches : List (BitVec 32 × BitVec 32)}
      {fuel entryPoint t : Nat} : CpuReaches img map k cr3 switches →
      taskCreate img fuel k entryPoint = .ret (k', t) → CpuReaches img map k' cr3 switches
  | stay {k k' : Kernel} {cr3 : BitVec 32} {switches : List (BitVec 32 × BitVec 32)}
      {fuel savedEsp : Nat} : CpuReaches img map k cr3 switches →
      taskYield img fuel k savedEsp = .ret (k', none) → CpuReaches img map k' cr3 switches
  | switch {k k' : Kernel} {switches : List (BitVec 32 × BitVec 32)} {fuel fuel' : Nat}
      {sw : Switch} {m m' : Machine} : CpuReaches img map k m.cr3 switches →
      taskYield img fuel k (m.esp - 36).toNat = .ret (k', some sw) →
      currentEspPtr m = BitVec.ofNat 32 sw.oldTask → newEsp m = BitVec.ofNat 32 sw.newEsp →
      newCr3 m = BitVec.ofNat 32 sw.newCr3 → run switchContextCode fuel' m = .ret m' →
      CpuReaches img map k' m'.cr3 ((m.ecx, newCr3 m) :: switches)

/-- A run on the machine is a run of the scheduler. -/
theorem CpuReaches.reaches {img : Image} {map : List Pmm.MemorymapEntry} {k : Kernel}
    {cr3 : BitVec 32} {switches : List (BitVec 32 × BitVec 32)}
    (h : CpuReaches img map k cr3 switches) : ∃ created ended, Reaches img map k created ended := by
  induction h with
  | init mem pcb links => exact ⟨_, _, Reaches.init mem pcb links⟩
  | create _ hret ih =>
      obtain ⟨created, ended, hrun⟩ := ih
      exact ⟨_, _, hrun.create hret⟩
  | stay _ hret ih =>
      obtain ⟨created, ended, hrun⟩ := ih
      exact ⟨_, _, hrun.yield hret⟩
  | switch _ hret _ _ _ _ ih =>
      obtain ⟨created, ended, hrun⟩ := ih
      exact ⟨_, _, hrun.yield hret⟩

theorem run_cr3 {m m' : Machine} {fuel : Nat} (h : run switchContextCode fuel m = .ret m') :
    m'.cr3 = m.ecx := by
  obtain ⟨m'', hret, hcr3⟩ := switchContext_cr3 m (Nat.le_max_right fuel 14)
  have hmono : run switchContextCode (max fuel 14) m = .ret m' :=
    Exec.loop_mono h (Nat.le_max_left fuel 14)
  rw [hret, Exec.ret.injEq] at hmono
  rw [← hmono, hcr3]

/-- `CR3` is the current task's exactly when `ECX` was right at the last switch. -/
theorem CpuReaches.cr3_iff {img : Image} {map : List Pmm.MemorymapEntry} {k : Kernel}
    {cr3 : BitVec 32} {switches : List (BitVec 32 × BitVec 32)}
    (h : CpuReaches img map k cr3 switches) :
    cr3 = BitVec.ofNat 32 (k.pcb k.currentTask).cr3 ↔ ∀ p ∈ switches.head?, p.1 = p.2 := by
  induction h with
  | init mem pcb links => simp [taskInit]
  | @create k k' cr3 switches fuel entryPoint t hrun hret ih =>
      obtain ⟨created, ended, hreach⟩ := hrun.reaches
      obtain ⟨base, ready, dead, all, hinv, -⟩ := hreach.reached
      obtain ⟨-, hcur, -, hpcb⟩ := (taskCreate_safe hinv fuel entryPoint).of_ret hret
      simp only at hcur hpcb
      rw [hcur, hpcb _ (hinv.mem_all.2 (by simp))]
      exact ih
  | @stay k k' cr3 switches fuel savedEsp hrun hret ih =>
      obtain ⟨created, ended, hreach⟩ := hrun.reaches
      obtain ⟨base, ready, dead, all, hinv, -⟩ := hreach.reached
      obtain ⟨-, -, hnone, -⟩ := (taskYield_safe hinv (Or.inl rfl) fuel savedEsp).of_ret hret
      obtain ⟨-, hcur, hpcb⟩ := hnone rfl
      simp only at hcur hpcb
      rw [hcur, hpcb]
      exact ih
  | @switch k k' switches fuel fuel' sw m m' hrun hret _ _ hcr3 hexec ih =>
      obtain ⟨created, ended, hreach⟩ := hrun.reaches
      obtain ⟨base, ready, dead, all, hinv, -⟩ := hreach.reached
      obtain ⟨-, -, -, hsw⟩ := (taskYield_safe hinv (Or.inl rfl) fuel _).of_ret hret
      have hnext := hsw sw rfl
      simp only at hnext
      rw [run_cr3 hexec, ← hnext, ← hcr3]
      simp

/-- **When `CR3` follows the current task.**  After any run `CR3` holds the page
directory of the current task exactly when `ECX` was `new_cr3` on entry to the last
`switch_context`, and so at every moment of the runs in which that is the case at
every switch.  For a single call from any machine state: it returns, and `CR3` is
`new_cr3` exactly when `ECX` was. -/
theorem cr3_follows_current {img : Image} {map : List Pmm.MemorymapEntry} {k : Kernel}
    {cr3 : BitVec 32} {switches : List (BitVec 32 × BitVec 32)}
    (h : CpuReaches img map k cr3 switches) :
    (cr3 = BitVec.ofNat 32 (k.pcb k.currentTask).cr3 ↔ ∀ p ∈ switches.head?, p.1 = p.2) ∧
      ((∀ p ∈ switches, p.1 = p.2) → cr3 = BitVec.ofNat 32 (k.pcb k.currentTask).cr3) ∧
      ∀ m : Machine, ∃ m', run switchContextCode 14 m = .ret m' ∧
        (m'.cr3 = newCr3 m ↔ m.ecx = newCr3 m) := by
  refine ⟨h.cr3_iff, fun hall => h.cr3_iff.2 fun p hp => hall p (List.mem_of_mem_head? hp),
    fun m => ?_⟩
  obtain ⟨m', hret, hm'⟩ := switchContext_cr3 m (le_refl 14)
  exact ⟨m', hret, by rw [hm']⟩

/-- A machine with the arguments of `switch_context` on its stack, and with the given
`ECX` and `CR3`. -/
def callMachine (currentEspPtr newEsp newCr3 ecx cr3 : BitVec 32) : Machine :=
  (((⟨0, ecx, 0, 0, 0x8f000, 0, 0, 0, 0x202, cr3, 0, fun _ => 0⟩ : Machine).write
    0x8f004 currentEspPtr).write 0x8f008 newEsp).write 0x8f00c newCr3

theorem callMachine_args (p e c ecx cr3 : BitVec 32) :
    currentEspPtr (callMachine p e c ecx cr3) = p ∧ newEsp (callMachine p e c ecx cr3) = e ∧
      newCr3 (callMachine p e c ecx cr3) = c ∧ (callMachine p e c ecx cr3).ecx = ecx ∧
      (callMachine p e c ecx cr3).cr3 = cr3 := by
  have h1 : (callMachine p e c ecx cr3).esp + 4 = 0x8f004 := rfl
  have h2 : (callMachine p e c ecx cr3).esp + 8 = 0x8f008 := rfl
  have h3 : (callMachine p e c ecx cr3).esp + 12 = 0x8f00c := rfl
  refine ⟨?_, ?_, ?_, rfl, rfl⟩
  · rw [currentEspPtr, h1, callMachine, read_write_of_far _ _ (by bv_omega),
      read_write_of_far _ _ (by bv_omega), read_write_self]
  · rw [newEsp, h2, callMachine, read_write_of_far _ _ (by bv_omega), read_write_self]
  · rw [newCr3, h3, callMachine, read_write_self]

/-- Creating a task and switching to it, with any value in `ECX`. -/
theorem cpuReaches_first_switch : ∃ k c, k.currentTask = 0x400008 ∧
    ∀ ecx, ∃ cr3, CpuReaches smallImage oneFrame k cr3 [(ecx, c)] := by
  obtain ⟨mem, frames, pdir, hcreate⟩ := create_first
  obtain ⟨k, sw, hyield, hcur⟩ := yield_first mem frames pdir (0x8f000#32 - 36).toNat
  refine ⟨k, BitVec.ofNat 32 sw.newCr3, hcur, fun ecx => ?_⟩
  obtain ⟨h1, h2, h3, h4, h5⟩ := callMachine_args (BitVec.ofNat 32 sw.oldTask)
    (BitVec.ofNat 32 sw.newEsp) (BitVec.ofNat 32 sw.newCr3) ecx
    (BitVec.ofNat 32 smallImage.pageDirectory)
  obtain ⟨m', hrun, -⟩ := switchContext_cr3 (callMachine (BitVec.ofNat 32 sw.oldTask)
    (BitVec.ofNat 32 sw.newEsp) (BitVec.ofNat 32 sw.newCr3) ecx
    (BitVec.ofNat 32 smallImage.pageDirectory)) (le_refl 14)
  have hinit : CpuReaches smallImage oneFrame smallKernel
      (BitVec.ofNat 32 smallImage.pageDirectory) [] := CpuReaches.init _ _ _
  have hstart := hinit.create hcreate
  rw [← h5] at hstart
  have hswitch := hstart.switch hyield h1 h2 h3 hrun
  rw [h3, h4] at hswitch
  exact ⟨m'.cr3, hswitch⟩

/-- A switch on which `ECX` happens to hold the new page directory. -/
theorem cr3_follows_current_matched : ∃ k cr3 switches,
    CpuReaches smallImage oneFrame k cr3 switches ∧ k.currentTask = 0x400008 ∧
      cr3 = BitVec.ofNat 32 (k.pcb k.currentTask).cr3 := by
  obtain ⟨k, c, hcur, hrun⟩ := cpuReaches_first_switch
  obtain ⟨cr3, hrun⟩ := hrun c
  exact ⟨k, cr3, _, hrun, hcur, (cr3_follows_current hrun).1.2 (by simp)⟩

/-- A switch on which `ECX` holds something else: the new task runs on a page directory
that is not its own. -/
theorem cr3_strays : ∃ k cr3 switches, CpuReaches smallImage oneFrame k cr3 switches ∧
    k.currentTask = 0x400008 ∧ cr3 ≠ BitVec.ofNat 32 (k.pcb k.currentTask).cr3 := by
  obtain ⟨k, c, hcur, hrun⟩ := cpuReaches_first_switch
  obtain ⟨cr3, hrun⟩ := hrun (c + 1)
  refine ⟨k, cr3, _, hrun, hcur, fun heq => ?_⟩
  have hmatch := hrun.cr3_iff.1 heq (c + 1, c) rfl
  simp at hmatch

end BenmoshOS.Task
