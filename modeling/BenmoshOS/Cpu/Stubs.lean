import Mathlib.Logic.Relation
import BenmoshOS.Lib.Stack

/-!
# Entering and leaving the kernel: `cpu/interrupts.asm`

An interrupt or an exception passes through `isr_common_stub`, a system call through `isr128`.
Both save the registers on the kernel stack, call a C function, and return with `iret`.  The
processor's part (the words it pushes, the stack switch from ring 3, the data segments it clears
on the way back) is modelled with them.

The C function is a parameter.  What the stubs rely on is `Returns`: it comes back with the stack
pointer it was called with, and leaves what was saved above its arguments as it was.  Of the
argument of `isr_handler`, which is the saved registers themselves, they rely on the same.

* `atHandler_stack`, `atDispatcher_stack` — what the C functions find on the stack.
* `interrupt_resumes` — the registers that a handler leaves are those that the program gets.
* `isr_transparent` — a handler that leaves its argument alone is not noticed; `ES`, `FS` and `GS`
  come back as `DS`.
* `isr128_returns` — a system call changes `EAX` alone, as far as the dispatcher leaves the data
  segments alone, which `isr128` does not save.
* `jumpUsermode_enters`, `ring3_transparent` — the way into ring 3, and whole runs of the program
  there.
-/

namespace BenmoshOS

namespace Cpu

open X86

/-- The processor: general registers, flags, `EIP` and memory, the segment registers, and the
stack that the task state segment names for ring 0. -/
structure Processor where
  core : X86.Machine
  cs : BitVec 16
  ds : BitVec 16
  es : BitVec 16
  fs : BitVec 16
  gs : BitVec 16
  ss : BitVec 16
  ss0 : BitVec 16
  esp0 : BitVec 32

/-- The program runs in ring 3. -/
def Processor.User (p : Processor) : Prop := p.cs &&& 3 = 3

instance (p : Processor) : Decidable p.User := inferInstanceAs (Decidable (_ = _))

/-! ## The processor's part -/

/-- What the processor pushes: in ring 3 the stack it leaves, then flags, code segment and place. -/
def Processor.returnWords (p : Processor) : List (BitVec 32) :=
  (if p.User then [p.ss.setWidth 32, p.core.esp] else []) ++
    [p.core.eflags, p.cs.setWidth 32, p.core.eip]

/-- The stack on which the processor delivers an interrupt. -/
def Processor.kernelStack (p : Processor) : X86.Machine :=
  if p.User then { p.core with esp := p.esp0 } else p.core

/-- An interrupt gate: the stack of ring 0, the return words, an error code if the exception has
one, and the flags TF, IF, NT, RF and VM cleared. -/
def Processor.deliver (p : Processor) (error : Option (BitVec 32)) : Processor :=
  { p with
    core := { pushAll p.kernelStack (p.returnWords ++ error.toList) with
      eflags := p.core.eflags &&& ~~~ 0x34300#32 }
    cs := 0x08
    ss := if p.User then p.ss0 else p.ss }

/-- The privilege level of the descriptor a selector names: of the six descriptors, those of user
code and user data have level 3. -/
def dpl (selector : BitVec 16) : Nat :=
  if selector >>> 3 = 3 ∨ selector >>> 3 = 4 then 3 else 0

/-- Ring 3 may hold the selector: it is null, or its descriptor has level 3. -/
def Visible (selector : BitVec 16) : Prop := selector &&& 0xFFFC = 0 ∨ dpl selector = 3

instance (selector : BitVec 16) : Decidable (Visible selector) :=
  inferInstanceAs (Decidable (_ ∨ _))

/-- What is left of a data segment on the way back to ring 3. -/
def cleared (selector : BitVec 16) : BitVec 16 := if Visible selector then selector else 0

/-- `iret` up to the change of the privilege level: place, code segment and flags. -/
def Processor.popReturn (p : Processor) : Processor :=
  { p with
    core := { p.core with
      eip := p.core.top
      eflags := p.core.read (p.core.esp + 8)
      esp := p.core.esp + 12 }
    cs := (p.core.read (p.core.esp + 4)).setWidth 16 }

/-- The way out of ring 0: the other stack, and no kernel data segments. -/
def Processor.leaveKernel (p : Processor) : Processor :=
  { p with
    core := { p.core with esp := p.core.top }
    ss := (p.core.read (p.core.esp + 4)).setWidth 16
    ds := cleared p.ds
    es := cleared p.es
    fs := cleared p.fs
    gs := cleared p.gs }

/-- `iret` -/
def Processor.iret (p : Processor) : Processor :=
  if p.popReturn.User then p.popReturn.leaveKernel else p.popReturn

/-! ## The stubs -/

/-- The data segment registers. -/
inductive Seg where
  | ds
  | es
  | fs
  | gs
  deriving DecidableEq, Repr

/-- The instructions of the stubs. -/
inductive StubInstr where
  /-- `cli` -/
  | cli
  /-- `push byte v` -/
  | pushByte (v : BitVec 8)
  /-- `push r` -/
  | push (r : Reg)
  /-- `pop eax` -/
  | popEax
  /-- `pushad` -/
  | pushad
  /-- `popad` -/
  | popad
  /-- `mov ax, ds` -/
  | movAxDs
  /-- `mov ax, v` -/
  | movAx (v : BitVec 16)
  /-- `mov s, ax` -/
  | movSeg (s : Seg)
  /-- `add esp, v` -/
  | addEsp (v : BitVec 32)
  /-- `mov [esp + disp], eax` -/
  | storeEax (disp : BitVec 32)
  /-- `mov ebx, [esp + disp]` -/
  | loadEbx (disp : BitVec 32)
  /-- `push v` -/
  | pushImm (v : BitVec 32)
  /-- `pushf` -/
  | pushf
  /-- `or eax, v` -/
  | orEax (v : BitVec 32)
  deriving DecidableEq, Repr

/-- The low half of a register is replaced. -/
def withLow (w : BitVec 32) (v : BitVec 16) : BitVec 32 := w.extractLsb' 16 16 ++ v

def StubInstr.eval (p : Processor) : StubInstr → Processor
  | .cli => { p with core := { p.core with eflags := p.core.eflags &&& ~~~ 0x200#32 } }
  | .pushByte v => { p with core := p.core.push (v.signExtend 32) }
  | .push r => { p with core := p.core.push (p.core.get r) }
  | .popEax => { p with core := ({ p.core with eax := p.core.top } : X86.Machine).drop }
  | .pushad => { p with core := Instr.eval .pushad p.core }
  | .popad => { p with core := Instr.eval .popad p.core }
  | .movAxDs => { p with core := { p.core with eax := withLow p.core.eax p.ds } }
  | .movAx v => { p with core := { p.core with eax := withLow p.core.eax v } }
  | .movSeg .ds => { p with ds := p.core.eax.setWidth 16 }
  | .movSeg .es => { p with es := p.core.eax.setWidth 16 }
  | .movSeg .fs => { p with fs := p.core.eax.setWidth 16 }
  | .movSeg .gs => { p with gs := p.core.eax.setWidth 16 }
  | .addEsp v => { p with core := { p.core with esp := p.core.esp + v } }
  | .storeEax disp => { p with core := p.core.write (p.core.esp + disp) p.core.eax }
  | .loadEbx disp => { p with core := { p.core with ebx := p.core.read (p.core.esp + disp) } }
  | .pushImm v => { p with core := p.core.push v }
  | .pushf => { p with core := Instr.eval .pushfd p.core }
  | .orEax v => { p with core := { p.core with eax := p.core.eax ||| v } }

def execute (code : List StubInstr) (p : Processor) : Processor := code.foldl StubInstr.eval p

theorem execute_cons (i : StubInstr) (code : List StubInstr) (p : Processor) :
    execute (i :: code) p = execute code (StubInstr.eval p i) := rfl

theorem execute_append (code code' : List StubInstr) (p : Processor) :
    execute (code ++ code') p = execute code' (execute code p) := List.foldl_append

theorem ss_execute (code : List StubInstr) : ∀ p : Processor, (execute code p).ss = p.ss := by
  induction code with
  | nil => exact fun _ => rfl
  | cons i code ih =>
      intro p
      rw [execute_cons, ih]
      cases i with
      | movSeg s => cases s <;> rfl
      | _ => simp only [StubInstr.eval]

/-- The vectors whose stub is made by `ISR_ERRCODE`. -/
def hasErrorCode (vector : Nat) : Bool :=
  vector ∈ [8, 10, 11, 12, 13, 14, 17, 21]

/-- `isr0` to `isr47`. -/
def isrEntry (vector : Nat) : List StubInstr :=
  if hasErrorCode vector then [.pushByte (BitVec.ofNat 8 vector)]
  else [.cli, .pushByte 0, .pushByte (BitVec.ofNat 8 vector)]

/-- `isr_common_stub` up to the call. -/
def stubEntry : List StubInstr :=
  [.pushad, .movAxDs, .push .eax, .movAx 0x10, .movSeg .ds, .movSeg .es, .movSeg .fs, .movSeg .gs]

/-- `isr_common_stub` behind the call, without the `iret`. -/
def stubExit : List StubInstr :=
  [.popEax, .movSeg .ds, .movSeg .es, .movSeg .fs, .movSeg .gs, .popad, .addEsp 8]

/-- `isr128` up to the call. -/
def syscallEntry : List StubInstr := [.pushad, .push .edx, .push .ecx, .push .ebx, .push .eax]

/-- `isr128` behind the call, without the `iret`. -/
def syscallExit : List StubInstr := [.addEsp 16, .storeEax 28, .popad]

/-- `jump_usermode` without the `iret`. -/
def jumpUsermodeCode : List StubInstr :=
  [.cli, .loadEbx 4, .movAx 0x23, .movSeg .ds, .movSeg .es, .movSeg .fs, .movSeg .gs,
    .pushImm 0x23, .pushImm 0x00A00000, .pushf, .popEax, .orEax 0x200, .push .eax, .pushImm 0x1B,
    .push .ebx]

/-- `jump_usermode`, from its first instruction to the first one of the user program. -/
def jumpUsermode (p : Processor) : Processor := (execute jumpUsermodeCode p).iret

/-- The processor at the call of `isr_handler`. -/
def atHandler (p : Processor) (vector : Nat) (error : BitVec 32) : Processor :=
  execute (isrEntry vector ++ stubEntry)
    (p.deliver (if hasErrorCode vector then some error else none))

/-- An interrupt from its delivery to the `iret`.  `handler` is the call of `isr_handler`. -/
def interrupt (handler : Processor → Processor) (p : Processor) (vector : Nat)
    (error : BitVec 32) : Processor :=
  (execute stubExit (handler (atHandler p vector error))).iret

/-- The processor at the call of `syscall_dispatcher`. -/
def atDispatcher (p : Processor) : Processor := execute syscallEntry (p.deliver none)

/-- `int 0x80` from its delivery to the `iret`. -/
def syscall (dispatcher : Processor → Processor) (p : Processor) : Processor :=
  (execute syscallExit (dispatcher (atDispatcher p))).iret

/-- A C function that is called with `p` has come back with `q`: the stack pointer is the same, and
so are the stack segment and the `n` words of the stack behind the lowest `k`. -/
structure Returns (k n : Nat) (p q : Processor) : Prop where
  esp : q.core.esp = p.core.esp
  words : ∀ x, 4 * k ≤ above p.core.esp x → above p.core.esp x < 4 * (k + n) →
    q.core.mem x = p.core.mem x
  ss : q.ss = p.ss

/-! ## The way in -/

/-- The words of a `struct interrupt_registers`, from the lowest address up.  `ds` is the segment
in the low half of a word whose high half is that of `EAX`. -/
def interruptRegisters (p : Processor) (vector : Nat) (error esp : BitVec 32) : List (BitVec 32) :=
  withLow p.core.eax p.ds ::
    ([p.core.edi, p.core.esi, p.core.ebp, esp, p.core.ebx, p.core.edx, p.core.ecx, p.core.eax] ++
      ([(BitVec.ofNat 8 vector).signExtend 32, if hasErrorCode vector then error else 0] ++
        p.returnWords.reverse))

section Entry

variable {p q : Processor} {base : BitVec 32} {ws : List (BitVec 32)}

theorem get_kernelStack (p : Processor) {r : Reg} (hr : r ≠ .esp) :
    p.kernelStack.get r = p.core.get r := by
  unfold Processor.kernelStack
  split_ifs
  · cases r <;> first | rfl | exact absurd rfl hr
  · rfl

theorem length_returnWords (p : Processor) : p.returnWords.length ≤ 5 := by
  unfold Processor.returnWords
  split_ifs <;> simp

/-- What the processor has pushed when the stub is entered. -/
theorem deliver_stack (p : Processor) (error : Option (BitVec 32)) :
    StackOn p.kernelStack.esp (p.deliver error).core (error.toList ++ p.returnWords.reverse) ∧
      ∀ r, r ≠ .esp → (p.deliver error).core.get r = p.core.get r := by
  have hlen := length_returnWords p
  have herror : error.toList.length ≤ 1 := by cases error <;> simp
  have hpushed := (StackOn.nil p.kernelStack).pushAll (p.returnWords ++ error.toList) (by
    rw [List.length_append, List.length_nil]
    omega)
  have hreverse : error.toList.reverse = error.toList := by cases error <;> rfl
  rw [List.reverse_append, hreverse, List.append_nil] at hpushed
  refine ⟨hpushed.of_same rfl rfl, fun r hr => ?_⟩
  refine Eq.trans ?_ ((pushAll_get hr (p.returnWords ++ error.toList) p.kernelStack).trans
    (get_kernelStack p hr))
  cases r <;> rfl

theorem push_step (h : StackOn base q.core ws) (hlen : ws.length ≤ 30) (v : BitVec 8) :
    StackOn base (StubInstr.eval q (.pushByte v)).core (v.signExtend 32 :: ws) ∧
      ∀ r, r ≠ .esp → (StubInstr.eval q (.pushByte v)).core.get r = q.core.get r :=
  ⟨h.push (by omega), fun r hr => push_get _ _ r hr⟩

theorem cli_step (h : StackOn base q.core ws) :
    StackOn base (StubInstr.eval q .cli).core ws ∧
      ∀ r, (StubInstr.eval q .cli).core.get r = q.core.get r :=
  ⟨h.of_same rfl rfl, fun r => by cases r <;> rfl⟩

/-- The stub of a vector completes the error code and the number. -/
theorem isrEntry_stack (p : Processor) (vector : Nat) (error : BitVec 32) :
    let q := execute (isrEntry vector) (p.deliver (if hasErrorCode vector then some error else none))
    StackOn p.kernelStack.esp q.core ([(BitVec.ofNat 8 vector).signExtend 32,
        if hasErrorCode vector then error else 0] ++ p.returnWords.reverse) ∧
      (∀ r, r ≠ .esp → q.core.get r = p.core.get r) ∧ q.ds = p.ds := by
  have hlen := length_returnWords p
  cases he : hasErrorCode vector with
  | true =>
      obtain ⟨hstack, hget⟩ := deliver_stack p (some error)
      have hds : (p.deliver (some error)).ds = p.ds := rfl
      simp only [isrEntry, he, if_true, execute, List.foldl_cons, List.foldl_nil]
      generalize p.deliver (some error) = d at hstack hget hds ⊢
      obtain ⟨hstack₁, hget₁⟩ := push_step hstack (by simp; omega) (BitVec.ofNat 8 vector)
      exact ⟨hstack₁, fun r hr => (hget₁ r hr).trans (hget r hr), hds⟩
  | false =>
      obtain ⟨hstack, hget⟩ := deliver_stack p none
      have hds : (p.deliver none).ds = p.ds := rfl
      simp only [isrEntry, he, if_false, Bool.false_eq_true, execute, List.foldl_cons,
        List.foldl_nil]
      generalize p.deliver none = d at hstack hget hds ⊢
      obtain ⟨hstack₁, hget₁⟩ := cli_step hstack
      obtain ⟨hstack₂, hget₂⟩ := push_step hstack₁ (by simp; omega) 0
      obtain ⟨hstack₃, hget₃⟩ := push_step hstack₂ (by simp; omega) (BitVec.ofNat 8 vector)
      refine ⟨hstack₃, fun r hr => ?_, hds⟩
      exact (hget₃ r hr).trans ((hget₂ r hr).trans ((hget₁ r).trans (hget r hr)))

/-- `pushad` -/
theorem pushad_step {c : X86.Machine} (h : StackOn base q.core ws) (hlen : ws.length ≤ 16)
    (hget : ∀ r, r ≠ .esp → q.core.get r = c.get r) :
    StackOn base (StubInstr.eval q .pushad).core
        ([c.edi, c.esi, c.ebp, q.core.esp, c.ebx, c.edx, c.ecx, c.eax] ++ ws) ∧
      (StubInstr.eval q .pushad).core.eax = c.eax := by
  have hsaved := h.pushAll [q.core.eax, q.core.ecx, q.core.edx, q.core.ebx, q.core.esp,
    q.core.ebp, q.core.esi, q.core.edi] (by
      simp only [List.length_cons, List.length_nil]
      omega)
  have hedi : q.core.edi = c.edi := hget .edi (by decide)
  have hesi : q.core.esi = c.esi := hget .esi (by decide)
  have hebp : q.core.ebp = c.ebp := hget .ebp (by decide)
  have hebx : q.core.ebx = c.ebx := hget .ebx (by decide)
  have hedx : q.core.edx = c.edx := hget .edx (by decide)
  have hecx : q.core.ecx = c.ecx := hget .ecx (by decide)
  have heax : q.core.eax = c.eax := hget .eax (by decide)
  rw [← eval_pushad, hedi, hesi, hebp, hebx, hedx, hecx, heax] at hsaved
  have hkeep : (Instr.eval .pushad q.core).get .eax = q.core.get .eax := eval_get q.core .eax rfl
  exact ⟨hsaved, hkeep.trans heax⟩

/-- Behind `pushad`, the common stub saves the data segment and loads that of the kernel. -/
theorem segments_stack (h : StackOn base q.core ws) (hlen : ws.length ≤ 30) :
    StackOn base (execute (stubEntry.drop 1) q).core (withLow q.core.eax q.ds :: ws) :=
  have hds := h.push (v := withLow q.core.eax q.ds) (by omega)
  hds.of_same rfl rfl

theorem stubEntry_stack {c : X86.Machine} (h : StackOn base q.core ws) (hlen : ws.length ≤ 16)
    (hget : ∀ r, r ≠ .esp → q.core.get r = c.get r) :
    StackOn base (execute stubEntry q).core (withLow c.eax q.ds ::
      ([c.edi, c.esi, c.ebp, q.core.esp, c.ebx, c.edx, c.ecx, c.eax] ++ ws)) := by
  obtain ⟨hsaved, heax⟩ := pushad_step h hlen hget
  have hds : (StubInstr.eval q .pushad).ds = q.ds := by simp only [StubInstr.eval]
  have hstub : execute stubEntry q = execute (stubEntry.drop 1) (StubInstr.eval q .pushad) :=
    execute_cons .pushad (stubEntry.drop 1) q
  rw [hstub, ← hds, ← heax]
  rw [← heax] at hsaved
  generalize StubInstr.eval q .pushad = n at hsaved ⊢
  refine segments_stack hsaved ?_
  simp only [List.length_append, List.length_cons, List.length_nil]
  omega

/-- **What the handler finds.**  The argument of `isr_handler` is a `struct interrupt_registers`
with the registers, the flags and the place of the interrupted program, the vector and the error
code; below ring 0 also its stack.  The field `esp` is that of the kernel stack. -/
theorem atHandler_stack (p : Processor) (vector : Nat) (error : BitVec 32) :
    ∃ esp, StackOn p.kernelStack.esp (atHandler p vector error).core
      (interruptRegisters p vector error esp) := by
  have hlen := length_returnWords p
  obtain ⟨hstack, hget, hds⟩ := isrEntry_stack p vector error
  have hstub : atHandler p vector error = execute stubEntry (execute (isrEntry vector)
      (p.deliver (if hasErrorCode vector then some error else none))) :=
    execute_append (isrEntry vector) stubEntry _
  rw [hstub]
  generalize execute (isrEntry vector) _ = q at hstack hget hds ⊢
  have hentry := stubEntry_stack hstack (by simp; omega) hget
  rw [hds] at hentry
  exact ⟨q.core.esp, hentry⟩

end Entry

/-! ## The way out -/

section Exit

variable {c p q : Processor} {base : BitVec 32} {ws : List (BitVec 32)}

@[simp] theorem low_withLow (w : BitVec 32) (v : BitVec 16) :
    (withLow w v).setWidth 16 = v := by
  refine BitVec.eq_of_getLsbD_eq fun i hi => ?_
  have happend : (withLow w v).getLsbD i =
      if i < 16 then v.getLsbD i else (w.extractLsb' 16 16).getLsbD (i - 16) :=
    BitVec.getLsbD_append
  rw [BitVec.getLsbD_setWidth, happend, if_pos hi]
  simp [hi]

theorem low_word (v : BitVec 16) : (v.setWidth 32).setWidth 16 = v := by simp

/-- The data segment registers. -/
def Processor.segments (p : Processor) : List (BitVec 16) := [p.ds, p.es, p.fs, p.gs]

/-- **The way back.**  With the return words of `c` on the stack, `iret` goes on where `c` was. -/
theorem iret_resumes (h : WordsAt q.core q.core.esp c.returnWords.reverse)
    (hkernel : ¬ c.User → q.core.esp + 12 = c.core.esp ∧ q.ss = c.ss) :
    (q.iret.core.esp = c.core.esp ∧ q.iret.core.eflags = c.core.eflags ∧
        q.iret.core.eip = c.core.eip ∧ q.iret.cs = c.cs ∧ q.iret.ss = c.ss) ∧
      (∀ r, r ≠ .esp → q.iret.core.get r = q.core.get r) ∧ q.iret.core.mem = q.core.mem ∧
      q.iret.segments = if c.User then q.segments.map cleared else q.segments := by
  have hpop : q.core.top = c.core.eip ∧ q.core.read (q.core.esp + 4) = c.cs.setWidth 32 ∧
      q.core.read (q.core.esp + 8) = c.core.eflags ∧ (c.User →
        q.core.read (q.core.esp + 12) = c.core.esp ∧
        q.core.read (q.core.esp + 12 + 4) = c.ss.setWidth 32) := by
    have h8 : q.core.esp + 4 + 4 = q.core.esp + 8 := by bv_omega
    have h12 : q.core.esp + 8 + 4 = q.core.esp + 12 := by bv_omega
    unfold Processor.returnWords at h
    split_ifs at h with huser
    · obtain ⟨heip, hcs, hflags, hesp, hss, -⟩ := h
      rw [h8] at hflags hesp hss
      rw [h12] at hesp hss
      exact ⟨heip, hcs, hflags, fun _ => ⟨hesp, hss⟩⟩
    · obtain ⟨heip, hcs, hflags, -⟩ := h
      exact ⟨heip, hcs, h8 ▸ hflags, fun hu => absurd hu huser⟩
  obtain ⟨heip, hcs, hflags, hstack⟩ := hpop
  have hcs' : q.popReturn.cs = c.cs := by
    show (q.core.read (q.core.esp + 4)).setWidth 16 = c.cs
    rw [hcs, low_word]
  have huser : q.popReturn.User ↔ c.User := by rw [Processor.User, hcs', Processor.User]
  unfold Processor.iret
  by_cases hu : c.User
  · obtain ⟨hesp, hss⟩ := hstack hu
    rw [if_pos (huser.mpr hu), if_pos hu]
    have hss' : (q.core.read (q.core.esp + 12 + 4)).setWidth 16 = c.ss := by rw [hss, low_word]
    refine ⟨⟨hesp, hflags, heip, hcs', hss'⟩, fun r hr => ?_, rfl, rfl⟩
    cases r <;> first | rfl | exact absurd rfl hr
  · obtain ⟨hesp, hss⟩ := hkernel hu
    rw [if_neg (huser.not.mpr hu), if_neg hu]
    refine ⟨⟨hesp, hflags, heip, hcs', hss⟩, fun r hr => ?_, rfl, rfl⟩
    cases r <;> first | rfl | exact absurd rfl hr

/-- The words that the common stub finds when the handler is back. -/
theorem stubExit_stack {vector : Nat} {error x : BitVec 32}
    (h : WordsAt q.core q.core.esp (interruptRegisters c vector error x)) :
    (∀ r, r ≠ .esp → (execute stubExit q).core.get r = c.core.get r) ∧
      WordsAt (execute stubExit q).core (execute stubExit q).core.esp c.returnWords.reverse ∧
      (execute stubExit q).core.esp = q.core.esp + 44 ∧
      (execute stubExit q).core.mem = q.core.mem ∧ (execute stubExit q).ss = q.ss ∧
      (execute stubExit q).segments = List.replicate 4 c.ds := by
  obtain ⟨htop, hwords⟩ := h
  -- the segments
  have hds : (q.core.top).setWidth 16 = c.ds := (congrArg _ htop).trans (low_withLow _ _)
  have hpop : (execute (stubExit.take 5) q).core.esp = q.core.esp + 4 ∧
      (execute (stubExit.take 5) q).core.mem = q.core.mem ∧
      (execute (stubExit.take 5) q).ss = q.ss ∧
      (execute (stubExit.take 5) q).segments = List.replicate 4 (q.core.top.setWidth 16) :=
    ⟨rfl, rfl, rfl, rfl⟩
  have hcode : execute stubExit q =
      execute [.popad, .addEsp 8] (execute (stubExit.take 5) q) :=
    execute_append (stubExit.take 5) [.popad, .addEsp 8] q
  rw [hcode]
  generalize execute (stubExit.take 5) q = q' at hpop
  obtain ⟨hesp, hmem, hss, hsegments⟩ := hpop
  rw [hds] at hsegments
  -- the registers
  have hwords' : WordsAt q'.core q'.core.esp _ := hesp ▸ hwords.of_mem hmem
  obtain ⟨hget, hrest, hesp'⟩ := popad_restores hwords'
  have hpopad : (Instr.eval .popad q'.core).mem = q'.core.mem := eval_mem q'.core rfl
  have hq : execute [.popad, .addEsp 8] q' = { q' with core := { Instr.eval .popad q'.core with
      esp := (Instr.eval .popad q'.core).esp + 8 } } := rfl
  rw [hq]
  generalize Instr.eval .popad q'.core = m at hget hesp' hpopad ⊢
  have h40 : m.esp + 8 = q'.core.esp + 32 + 4 + 4 := by
    rw [hesp']
    bv_omega
  have h44 : m.esp + 8 = q.core.esp + 44 := by
    rw [hesp', hesp]
    bv_omega
  refine ⟨fun r hr => ?_, ?_, h44, hpopad.trans hmem, hss, hsegments⟩
  · rw [← hget r hr]
    cases r <;> first | rfl | exact absurd rfl hr
  · show WordsAt _ (m.esp + 8) _
    rw [h40]
    refine WordsAt.of_mem ?_ hrest.2.2
    exact hpopad

/-- The program of `c` goes on in `r`: registers, flags, place, code segment and stack. -/
structure Resumes (c r : Processor) : Prop where
  registers : ∀ g, r.core.get g = c.core.get g
  eflags : r.core.eflags = c.core.eflags
  eip : r.core.eip = c.core.eip
  cs : r.cs = c.cs
  ss : r.ss = c.ss

/-- `iret` with the registers of `c` loaded. -/
theorem Resumes.of_iret (hget : ∀ r, r ≠ .esp → q.core.get r = c.core.get r)
    (h : WordsAt q.core q.core.esp c.returnWords.reverse)
    (hkernel : ¬ c.User → q.core.esp + 12 = c.core.esp ∧ q.ss = c.ss) : Resumes c q.iret := by
  obtain ⟨⟨hesp, hflags, heip, hcs, hss⟩, hregs, -, -⟩ := iret_resumes h hkernel
  refine ⟨fun g => ?_, hflags, heip, hcs, hss⟩
  by_cases hg : g = .esp
  · subst hg
    exact hesp
  · exact (hregs g hg).trans (hget g hg)

theorem replicate_cleared {n : Nat} {s : BitVec 16} (h : c.User → Visible s) :
    (if c.User then (List.replicate n s).map cleared else List.replicate n s) =
      List.replicate n s := by
  split_ifs with hu
  · rw [List.map_replicate, cleared, if_pos (h hu)]
  · rfl

end Exit

/-! ## Interrupts -/

section Interrupts

variable {handler : Processor → Processor} {c p : Processor} {vector : Nat}
  {error x : BitVec 32}

theorem kernelStack_of_kernel (h : ¬ p.User) : p.kernelStack = p.core := if_neg h

theorem length_interruptRegisters (p : Processor) (vector : Nat) (error esp : BitVec 32) :
    (interruptRegisters p vector error esp).length = 11 + p.returnWords.length := by
  simp [interruptRegisters]
  omega

/-- **What the handler leaves is what comes back.**  When `isr_handler` returns with the registers
of a program `c` in its argument, `c` goes on, in the same ring; in ring 0 on the stack of the
interrupted program. -/
theorem interrupt_resumes
    (hesp : (handler (atHandler p vector error)).core.esp = (atHandler p vector error).core.esp)
    (hwords : WordsAt (handler (atHandler p vector error)).core
      (handler (atHandler p vector error)).core.esp (interruptRegisters c vector error x))
    (hring : c.User ↔ p.User)
    (hkernel : ¬ p.User → c.core.esp = p.core.esp ∧ (handler (atHandler p vector error)).ss = c.ss)
    (hds : c.User → Visible c.ds) :
    Resumes c (interrupt handler p vector error) ∧
      (interrupt handler p vector error).segments = List.replicate 4 c.ds := by
  obtain ⟨esp, hstack⟩ := atHandler_stack p vector error
  have hdepth := hstack.depth
  rw [length_interruptRegisters] at hdepth
  rw [hdepth] at hesp
  rw [interrupt]
  generalize handler (atHandler p vector error) = q at hesp hwords hkernel ⊢
  obtain ⟨hget, hreturn, hout, -, hss, hsegments⟩ := stubExit_stack hwords
  generalize execute stubExit q = q' at hget hreturn hout hss hsegments ⊢
  have hkernel' : ¬ c.User → q'.core.esp + 12 = c.core.esp ∧ q'.ss = c.ss := fun hc => by
    have hp : ¬ p.User := hring.not.mp hc
    obtain ⟨hcesp, hcss⟩ := hkernel hp
    have hlen : p.returnWords.length = 3 := by simp [Processor.returnWords, hp]
    rw [hlen, kernelStack_of_kernel hp] at hesp
    refine ⟨?_, hss.trans hcss⟩
    rw [hout, hesp, hcesp]
    bv_omega
  refine ⟨Resumes.of_iret hget hreturn hkernel', ?_⟩
  rw [(iret_resumes hreturn hkernel').2.2.2, hsegments]
  exact replicate_cleared hds

/-- **An interrupt is transparent.**  A handler that leaves its argument alone is not noticed,
except that `ES`, `FS` and `GS` come back as `DS`. -/
theorem isr_transparent (hreturns : Returns 0 (11 + p.returnWords.length)
      (atHandler p vector error) (handler (atHandler p vector error)))
    (hds : p.User → Visible p.ds) :
    Resumes p (interrupt handler p vector error) ∧
      (interrupt handler p vector error).segments = List.replicate 4 p.ds := by
  obtain ⟨esp, hstack⟩ := atHandler_stack p vector error
  have hlen := length_interruptRegisters p vector error esp
  have hshort := length_returnWords p
  have hwords := hstack.words.congr (by rw [hlen]; omega) fun x hx =>
    hreturns.words x (by omega) (by rw [hlen] at hx; omega)
  rw [← hreturns.esp] at hwords
  refine interrupt_resumes hreturns.esp hwords Iff.rfl (fun hp => ⟨rfl, ?_⟩) hds
  rw [hreturns.ss, atHandler, ss_execute]
  exact if_neg hp

end Interrupts

/-! ## System calls -/

section Syscall

variable {dispatcher : Processor → Processor} {p : Processor}

theorem push_reg_step {q : Processor} {c : X86.Machine} {base : BitVec 32}
    {ws : List (BitVec 32)} {r : Reg} (hr : r ≠ .esp)
    (h : StackOn base q.core ws ∧ ∀ s, s ≠ .esp → q.core.get s = c.get s)
    (hlen : ws.length ≤ 30) :
    StackOn base (StubInstr.eval q (.push r)).core (c.get r :: ws) ∧
      ∀ s, s ≠ .esp → (StubInstr.eval q (.push r)).core.get s = c.get s := by
  have hpushed := h.1.push (v := q.core.get r) (by omega)
  rw [h.2 r hr] at hpushed
  refine ⟨?_, fun s hs => (push_get _ _ s hs).trans (h.2 s hs)⟩
  simp only [StubInstr.eval, h.2 r hr]
  exact hpushed

/-- The arguments of the dispatcher. -/
theorem args_stack {q : Processor} {c : X86.Machine} {base : BitVec 32} {ws : List (BitVec 32)}
    (h : StackOn base q.core ws ∧ ∀ s, s ≠ .esp → q.core.get s = c.get s)
    (hlen : ws.length ≤ 20) :
    StackOn base (execute (syscallEntry.drop 1) q).core ([c.eax, c.ebx, c.ecx, c.edx] ++ ws) := by
  have h₁ := push_reg_step (r := .edx) (by decide) h (by omega)
  have h₂ := push_reg_step (r := .ecx) (by decide) h₁ (by rw [List.length_cons]; omega)
  have h₃ := push_reg_step (r := .ebx) (by decide) h₂ (by simp only [List.length_cons]; omega)
  have h₄ := push_reg_step (r := .eax) (by decide) h₃ (by simp only [List.length_cons]; omega)
  exact h₄.1

/-- **What the dispatcher finds**: the registers of the caller as its four arguments, and above them
what `pusha` and the processor have saved. -/
theorem atDispatcher_stack (p : Processor) : ∃ esp,
    StackOn p.kernelStack.esp (atDispatcher p).core ([p.core.eax, p.core.ebx, p.core.ecx, p.core.edx]
      ++ ([p.core.edi, p.core.esi, p.core.ebp, esp, p.core.ebx, p.core.edx, p.core.ecx, p.core.eax]
        ++ p.returnWords.reverse)) := by
  have hlen := length_returnWords p
  obtain ⟨hstack, hget⟩ := deliver_stack p none
  have hentry : atDispatcher p =
      execute (syscallEntry.drop 1) (StubInstr.eval (p.deliver none) .pushad) :=
    execute_cons .pushad (syscallEntry.drop 1) _
  rw [hentry]
  generalize p.deliver none = q at hstack hget ⊢
  rw [Option.toList_none, List.nil_append] at hstack
  obtain ⟨hsaved, -⟩ := pushad_step hstack (by rw [List.length_reverse]; omega) hget
  have hkeep : ∀ r, r ≠ .esp → (StubInstr.eval q .pushad).core.get r = p.core.get r := fun r hr =>
    have hwrites : Instr.writes .pushad r = false := by simpa [Instr.writes] using hr
    (eval_get q.core r hwrites).trans (hget r hr)
  refine ⟨q.core.esp, args_stack ⟨hsaved, hkeep⟩ ?_⟩
  simp only [List.length_append, List.length_cons, List.length_nil, List.length_reverse]
  omega

/-- The machine at `popa`. -/
def atPopa (q : Processor) : X86.Machine :=
  ({ q.core with esp := q.core.esp + 16 } : X86.Machine).write (q.core.esp + 16 + 28) q.core.eax

theorem execute_syscallExit (q : Processor) :
    execute syscallExit q = { q with core := Instr.eval .popad (atPopa q) } := by
  rw [syscallExit, execute_cons, execute_cons, execute_cons]
  simp only [StubInstr.eval, execute, List.foldl_nil, atPopa]

theorem words_atPopa {q : Processor} {c : X86.Machine} {ws : List (BitVec 32)} {x : BitVec 32}
    (h : WordsAt q.core (q.core.esp + 16)
      ([c.edi, c.esi, c.ebp, x, c.ebx, c.edx, c.ecx] ++ c.eax :: ws)) (hlen : ws.length ≤ 5) :
    WordsAt (atPopa q) (atPopa q).esp
      ([c.edi, c.esi, c.ebp, x, c.ebx, c.edx, c.ecx] ++ q.core.eax :: ws) := by
  have hlower : WordsAt ({ q.core with esp := q.core.esp + 16 } : X86.Machine)
      (q.core.esp + 16) ([c.edi, c.esi, c.ebp, x, c.ebx, c.edx, c.ecx] ++ c.eax :: ws) := by
    refine WordsAt.of_mem ?_ h
    rfl
  exact hlower.replace (by simp; omega)

/-- What `isr128` takes from the stack when the dispatcher is back. -/
theorem syscallExit_stack {q : Processor} {c : X86.Machine} {ws : List (BitVec 32)}
    {x : BitVec 32} (h : WordsAt q.core (q.core.esp + 16)
      ([c.edi, c.esi, c.ebp, x, c.ebx, c.edx, c.ecx] ++ c.eax :: ws)) (hlen : ws.length ≤ 5) :
    (∀ r, r ≠ .esp →
        (execute syscallExit q).core.get r = (c.set .eax q.core.eax).get r) ∧
      WordsAt (execute syscallExit q).core (execute syscallExit q).core.esp ws ∧
      (execute syscallExit q).core.esp = q.core.esp + 48 := by
  have hpopa := words_atPopa h hlen
  have h48 : (atPopa q).esp + 32 = q.core.esp + 48 := by
    rw [show (atPopa q).esp = q.core.esp + 16 from rfl]
    bv_omega
  rw [execute_syscallExit]
  generalize atPopa q = m at hpopa h48 ⊢
  obtain ⟨hget, hrest, hesp⟩ := popad_restores (c := c.set .eax q.core.eax) hpopa
  have hmem : (Instr.eval .popad m).mem = m.mem := eval_mem m rfl
  rw [← hesp] at hrest
  exact ⟨hget, hrest.of_mem hmem, hesp.trans h48⟩

/-- What lies above the arguments is there when the dispatcher is back. -/
theorem saved_of_returns {q : Processor} (hreturns : Returns 4 (8 + p.returnWords.length)
      (atDispatcher p) q) : ∃ x, WordsAt q.core (q.core.esp + 16)
    ([p.core.edi, p.core.esi, p.core.ebp, x, p.core.ebx, p.core.edx, p.core.ecx] ++
      p.core.eax :: p.returnWords.reverse) := by
  have hshort := length_returnWords p
  obtain ⟨esp, hstack⟩ := atDispatcher_stack p
  obtain ⟨-, hsaved⟩ := hstack.words.append
  refine ⟨esp, ?_⟩
  rw [hreturns.esp]
  refine hsaved.congr (by simp; omega) fun x hx => hreturns.words x ?_ ?_
  all_goals
    simp only [List.length_append, List.length_cons, List.length_nil, List.length_reverse,
      above] at hx ⊢
    bv_omega

/-- **A system call changes `EAX` alone.**  The dispatcher may overwrite its arguments, not what
lies above them.  The data segments are those that it leaves: `isr128` does not save them. -/
theorem isr128_returns (hreturns : Returns 4 (8 + p.returnWords.length) (atDispatcher p)
      (dispatcher (atDispatcher p))) :
    Resumes { p with core := p.core.set .eax (dispatcher (atDispatcher p)).core.eax }
        (syscall dispatcher p) ∧
      (syscall dispatcher p).segments =
        if p.User then (dispatcher (atDispatcher p)).segments.map cleared
        else (dispatcher (atDispatcher p)).segments := by
  have hshort := length_returnWords p
  obtain ⟨x, hwords⟩ := saved_of_returns hreturns
  obtain ⟨esp, hstack⟩ := atDispatcher_stack p
  have hdepth : (dispatcher (atDispatcher p)).core.esp =
      p.kernelStack.esp - BitVec.ofNat 32 (4 * (12 + p.returnWords.length)) := by
    rw [hreturns.esp, hstack.depth]
    simp only [List.length_append, List.length_cons, List.length_nil, List.length_reverse,
      ← Nat.add_assoc]
  have hss : (dispatcher (atDispatcher p)).ss = if p.User then p.ss0 else p.ss := by
    rw [hreturns.ss, atDispatcher, ss_execute]
    rfl
  rw [syscall]
  generalize dispatcher (atDispatcher p) = q at hwords hdepth hss ⊢
  let c : Processor := { p with core := p.core.set .eax q.core.eax }
  have hlen : p.returnWords.reverse.length ≤ 5 := by simpa using hshort
  obtain ⟨hget, hreturn, hesp⟩ := syscallExit_stack hwords hlen
  have hsame : (execute syscallExit q).segments = q.segments ∧
      (execute syscallExit q).ss = q.ss := by
    rw [execute_syscallExit]
    exact ⟨rfl, rfl⟩
  generalize execute syscallExit q = q' at hget hreturn hesp hsame ⊢
  have hkernel : ¬ c.User → q'.core.esp + 12 = c.core.esp ∧ q'.ss = c.ss := fun hp => by
    have hp' : ¬ p.User := hp
    have hthree : p.returnWords.length = 3 := by simp [Processor.returnWords, hp']
    rw [hthree, kernelStack_of_kernel hp'] at hdepth
    rw [if_neg hp'] at hss
    refine ⟨?_, hsame.2.trans hss⟩
    show q'.core.esp + 12 = p.core.esp
    rw [hesp, hdepth]
    bv_omega
  refine ⟨Resumes.of_iret hget hreturn hkernel, ?_⟩
  rw [(iret_resumes (c := c) hreturn hkernel).2.2.2, hsame.1]
  rfl

end Syscall

/-! ## The user program -/

section UserProgram

variable {p q r : Processor}

/-- The program that `jump_usermode` starts: the function it is called with, in ring 3, with
interrupts and with the general registers of the kernel. -/
def userProgram (p : Processor) : Processor :=
  { p with
    core := { p.core with
      eax := p.core.eflags &&& ~~~ 0x200#32 ||| 0x200
      ebx := p.core.read (p.core.esp + 4)
      esp := 0x00A00000
      eflags := p.core.eflags &&& ~~~ 0x200#32 ||| 0x200
      eip := p.core.read (p.core.esp + 4) }
    cs := 0x1B
    ss := 0x23 }

/-- Only the stack differs. -/
structure OnlyStack (p q : Processor) : Prop where
  get : ∀ r, r ≠ .esp → q.core.get r = p.core.get r
  eflags : q.core.eflags = p.core.eflags
  segments : q.segments = p.segments

def Processor.setEax (p : Processor) (v : BitVec 32) : Processor :=
  { p with core := p.core.set .eax v }

theorem OnlyStack.trans (h : OnlyStack p q) (h' : OnlyStack q r) : OnlyStack p r :=
  ⟨fun g hg => (h'.get g hg).trans (h.get g hg), h'.eflags.trans h.eflags,
    h'.segments.trans h.segments⟩

theorem OnlyStack.setEax (h : OnlyStack p q) (v : BitVec 32) : OnlyStack (p.setEax v) (q.setEax v) := by
  refine ⟨fun g hg => ?_, h.eflags, h.segments⟩
  by_cases ha : g = .eax
  · subst ha
    rfl
  · exact (get_set_of_ne q.core v .eax g ha).trans
      ((h.get g hg).trans (get_set_of_ne p.core v .eax g ha).symm)

variable {base v : BitVec 32} {ws : List (BitVec 32)}

theorem pushImm_step (h : StackOn base q.core ws) (hlen : ws.length ≤ 30) (v : BitVec 32) :
    StackOn base (StubInstr.eval q (.pushImm v)).core (v :: ws) ∧
      OnlyStack q (StubInstr.eval q (.pushImm v)) :=
  ⟨h.push (by omega), fun r hr => push_get _ _ r hr, rfl, rfl⟩

theorem push_value_step (h : StackOn base q.core ws) (hlen : ws.length ≤ 30) {g : Reg}
    (hg : q.core.get g = v) :
    StackOn base (StubInstr.eval q (.push g)).core (v :: ws) ∧
      OnlyStack q (StubInstr.eval q (.push g)) := by
  subst hg
  exact ⟨h.push (by omega), fun r hr => push_get _ _ r hr, rfl, rfl⟩

/-- `pushf`, `pop eax`, `or eax, 0x200` -/
theorem flags_step (h : StackOn base q.core ws) (hlen : ws.length ≤ 30) :
    let q' := execute [.pushf, .popEax, .orEax 0x200] q
    StackOn base q'.core ws ∧ OnlyStack (q.setEax (q.core.eflags ||| 0x200)) q' := by
  intro q'
  obtain ⟨htop, hdrop⟩ := (h.push (v := q.core.eflags) (by omega)).drop
  refine ⟨hdrop.of_same rfl rfl, fun r hr => ?_, rfl, rfl⟩
  cases r <;> first | rfl | exact absurd rfl hr | exact congrArg (· ||| 0x200) htop

/-- The frame for the `iret`. -/
theorem frame_usermode (q : Processor) :
    let q' := execute (jumpUsermodeCode.drop 7) q
    StackOn q.core.esp q'.core
        [q.core.ebx, 0x1B, q.core.eflags ||| 0x200, 0x00A00000, 0x23] ∧
      OnlyStack (q.setEax (q.core.eflags ||| 0x200)) q' := by
  intro q'
  obtain ⟨h₁, k₁⟩ := pushImm_step (StackOn.nil q.core) (by simp) 0x23
  obtain ⟨h₂, k₂⟩ := pushImm_step h₁ (by simp) 0x00A00000
  have hcode : q' = execute [.push .eax, .pushImm 0x1B, .push .ebx]
      (execute [.pushf, .popEax, .orEax 0x200]
        (StubInstr.eval (StubInstr.eval q (.pushImm 0x23)) (.pushImm 0x00A00000))) :=
    execute_append [.pushf, .popEax, .orEax 0x200] _ _
  have k := k₁.trans k₂
  rw [hcode]
  generalize StubInstr.eval (StubInstr.eval q (.pushImm 0x23)) (.pushImm 0x00A00000) = q₂ at h₂ k ⊢
  obtain ⟨h₃, k₃⟩ := flags_step h₂ (by simp)
  rw [k.eflags] at k₃
  replace k₃ := (k.setEax (q.core.eflags ||| 0x200)).trans k₃
  generalize execute [.pushf, .popEax, .orEax 0x200] q₂ = q₃ at h₃ k₃ ⊢
  obtain ⟨h₄, k₄⟩ := push_value_step h₃ (by simp) (k₃.get .eax (by decide))
  replace k₄ := k₃.trans k₄
  rw [execute_cons]
  generalize StubInstr.eval q₃ (.push .eax) = q₄ at h₄ k₄ ⊢
  obtain ⟨h₅, k₅⟩ := pushImm_step h₄ (by simp) 0x1B
  replace k₅ := k₄.trans k₅
  rw [execute_cons]
  generalize StubInstr.eval q₄ (.pushImm 0x1B) = q₅ at h₅ k₅ ⊢
  obtain ⟨h₆, k₆⟩ := push_value_step h₅ (by simp) (k₅.get .ebx (by decide))
  exact ⟨h₆, k₅.trans k₆⟩

theorem user_userProgram (p : Processor) : (userProgram p).User :=
  show (0x1B : BitVec 16) &&& 3 = 3 by decide

/-- `jump_usermode` up to the frame. -/
theorem prologue_usermode (p : Processor) :
    let q := execute (jumpUsermodeCode.take 7) p
    (∀ g, g ≠ .eax → q.core.get g = (p.core.set .ebx (p.core.read (p.core.esp + 4))).get g) ∧
      q.core.eflags = p.core.eflags &&& ~~~ 0x200#32 ∧ q.segments = List.replicate 4 0x23 := by
  intro q
  have hlow : q.segments =
      List.replicate 4 ((withLow p.core.eax 0x23).setWidth 16) := rfl
  refine ⟨fun g hg => ?_, rfl, hlow.trans (congrArg _ (low_withLow _ _))⟩
  cases g <;> first | rfl | exact absurd rfl hg

/-- **The way into ring 3.**  `jump_usermode` starts the function on the user stack, with
interrupts, and with the data segments of ring 3. -/
theorem jumpUsermode_enters (p : Processor) :
    Resumes (userProgram p) (jumpUsermode p) ∧
      (jumpUsermode p).segments = List.replicate 4 0x23 := by
  obtain ⟨hget, hflags, hsegments⟩ := prologue_usermode p
  have hcode : jumpUsermode p = (execute (jumpUsermodeCode.drop 7)
      (execute (jumpUsermodeCode.take 7) p)).iret :=
    congrArg Processor.iret (execute_append (jumpUsermodeCode.take 7) _ _)
  rw [hcode]
  generalize execute (jumpUsermodeCode.take 7) p = q at hget hflags hsegments ⊢
  obtain ⟨hstack, hkeeps⟩ := frame_usermode q
  generalize execute (jumpUsermodeCode.drop 7) q = q' at hstack hkeeps ⊢
  have hebx : q.core.ebx = p.core.read (p.core.esp + 4) := hget .ebx (by decide)
  rw [hebx, hflags] at hstack
  rw [hflags] at hkeeps
  have huser := user_userProgram p
  have hwords : WordsAt q'.core q'.core.esp (userProgram p).returnWords.reverse := by
    rw [Processor.returnWords, if_pos huser]
    exact hstack.words
  have hregs : ∀ g, g ≠ .esp → q'.core.get g = (userProgram p).core.get g := fun g hg => by
    rw [hkeeps.get g hg]
    by_cases ha : g = .eax
    · subst ha
      rfl
    · refine (get_set_of_ne q.core _ .eax g ha).trans ((hget g ha).trans ?_)
      cases g <;> first | rfl | exact absurd rfl ha | exact absurd rfl hg
  have hkernel : ¬ (userProgram p).User → q'.core.esp + 12 = (userProgram p).core.esp ∧
      q'.ss = (userProgram p).ss := fun h => absurd huser h
  refine ⟨Resumes.of_iret hregs hwords hkernel, ?_⟩
  have hsegments' : q'.segments = List.replicate 4 0x23 := hkeeps.segments.trans hsegments
  rw [(iret_resumes hwords hkernel).2.2.2, hsegments']
  exact replicate_cleared fun _ => by decide

/-- What can happen to a program in ring 3: its own instructions, which can change neither the ring
nor load a segment of the kernel; an interrupt; a system call. -/
inductive UserStep (p : Processor) : Processor → Prop where
  | run {q : Processor} (user : q.User) (visible : ∀ s ∈ q.segments, Visible s) : UserStep p q
  | interrupt (handler : Processor → Processor) (vector : Nat) (error : BitVec 32)
      (returns : Returns 0 (11 + p.returnWords.length) (atHandler p vector error)
        (handler (atHandler p vector error))) : UserStep p (interrupt handler p vector error)
  | syscall (dispatcher : Processor → Processor)
      (returns : Returns 4 (8 + p.returnWords.length) (atDispatcher p)
        (dispatcher (atDispatcher p))) : UserStep p (syscall dispatcher p)

/-- The program runs in ring 3 and sees no segment of the kernel. -/
def Outside (p : Processor) : Prop := p.User ∧ ∀ s ∈ p.segments, Visible s

theorem Resumes.user {c : Processor} (h : Resumes c r) (hc : c.User) : r.User := by
  rw [Processor.User, h.cs]
  exact hc

theorem visible_cleared (s : BitVec 16) : Visible (cleared s) := by
  unfold cleared
  split_ifs with h
  · exact h
  · exact .inl rfl

theorem Outside.step (h : Outside p) (hstep : UserStep p q) : Outside q := by
  obtain ⟨huser, hvisible⟩ := h
  cases hstep with
  | run user visible => exact ⟨user, visible⟩
  | interrupt handler vector error returns =>
      have hds : Visible p.ds := hvisible p.ds (by simp [Processor.segments])
      obtain ⟨hresumes, hsegments⟩ := isr_transparent returns fun _ => hds
      refine ⟨hresumes.user huser, fun s hs => ?_⟩
      rw [hsegments] at hs
      rw [List.eq_of_mem_replicate hs]
      exact hds
  | syscall dispatcher returns =>
      obtain ⟨hresumes, hsegments⟩ := isr128_returns returns
      refine ⟨hresumes.user huser, fun s hs => ?_⟩
      rw [hsegments, if_pos huser] at hs
      obtain ⟨s', -, rfl⟩ := List.mem_map.mp hs
      exact visible_cleared s'

/-- Whatever the user program does and however often it is interrupted, it stays outside. -/
theorem outside_of_run (h : Relation.ReflTransGen UserStep (jumpUsermode p) q) : Outside q := by
  induction h with
  | refl =>
      obtain ⟨hresumes, hsegments⟩ := jumpUsermode_enters p
      refine ⟨hresumes.user (user_userProgram p), fun s hs => ?_⟩
      rw [hsegments] at hs
      rw [List.eq_of_mem_replicate hs]
      decide
  | tail _ hstep ih => exact ih.step hstep

/-- **Whole runs of the user program.**  From `jump_usermode` on, between any instructions and
interrupts and system calls, the program is in ring 3 with no segment of the kernel.  A handler
finds its registers and the vector, and when it returns the program is resumed as it was; the
dispatcher finds `EAX`, `EBX`, `ECX` and `EDX`, and its result comes back in `EAX`. -/
theorem ring3_transparent (h : Relation.ReflTransGen UserStep (jumpUsermode p) q) :
    Outside q ∧
      (∀ vector error, (∃ esp, WordsAt (atHandler q vector error).core
          (atHandler q vector error).core.esp (interruptRegisters q vector error esp)) ∧
        ∀ handler, Returns 0 16 (atHandler q vector error) (handler (atHandler q vector error)) →
          Resumes q (interrupt handler q vector error) ∧
            (interrupt handler q vector error).segments = List.replicate 4 q.ds) ∧
      WordsAt (atDispatcher q).core (atDispatcher q).core.esp
        [q.core.eax, q.core.ebx, q.core.ecx, q.core.edx] ∧
      ∀ dispatcher, Returns 4 13 (atDispatcher q) (dispatcher (atDispatcher q)) →
        Resumes (q.setEax (dispatcher (atDispatcher q)).core.eax) (syscall dispatcher q) ∧
          (syscall dispatcher q).segments =
            (dispatcher (atDispatcher q)).segments.map cleared := by
  obtain ⟨huser, hvisible⟩ := outside_of_run h
  have hlen : q.returnWords.length = 5 := by simp [Processor.returnWords, huser]
  obtain ⟨esp, hstack⟩ := atDispatcher_stack q
  refine ⟨⟨huser, hvisible⟩, fun vector error => ⟨?_, fun handler hreturns => ?_⟩,
    hstack.words.append.1, fun dispatcher hreturns => ?_⟩
  · obtain ⟨esp, hstack⟩ := atHandler_stack q vector error
    exact ⟨esp, hstack.words⟩
  · refine isr_transparent ?_ fun _ => hvisible q.ds (by simp [Processor.segments])
    rw [hlen]
    exact hreturns
  · have hcall := @isr128_returns dispatcher q (by rw [hlen]; exact hreturns)
    rw [if_pos huser] at hcall
    exact hcall

/-- A kernel that calls `jump_usermode` for the function at 0x00800000. -/
def Processor.small : Processor :=
  { core := { eax := 0, ecx := 0, edx := 0, ebx := 0, esp := 0x0008FFF8, ebp := 0, esi := 0
              edi := 0, eflags := 0x202, cr3 := 0, eip := 0
              mem := fun x => if x = 0x0008FFFE then 0x80 else 0 }
    cs := 0x08, ds := 0x10, es := 0x10, fs := 0x10, gs := 0x10, ss := 0x10
    ss0 := 0x10, esp0 := 0x00090000 }

theorem returns_setEax (k n : Nat) (p : Processor) (v : BitVec 32) :
    Returns k n p (p.setEax v) := ⟨rfl, fun _ _ _ => rfl, rfl⟩

/-- A timer interrupt before the first instruction, with a handler that changes `EAX`. -/
theorem ring3_transparent_small :
    Resumes (jumpUsermode .small) (interrupt (·.setEax 7) (jumpUsermode .small) 32 0) :=
  ((ring3_transparent .refl).2.1 32 0).2 (·.setEax 7) (returns_setEax 0 16 _ 7) |>.1

end UserProgram

end Cpu

end BenmoshOS
