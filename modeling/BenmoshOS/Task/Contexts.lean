import BenmoshOS.Lib.Stack
import BenmoshOS.Task.Switch

/-!
# The context switch: what a task finds when it is resumed

Three pieces of code agree on one stack layout: the pushes of `switch_context`, its pops,
and the frame that `task_create` builds by hand.  `frame` is that layout.

* `switchContext_spec` — one call of `switch_context`: the frame of the caller is left on
  its stack, `ESP` is stored, and the registers come from the frame at `new_esp`.
* `System` — any number of tasks on one machine, each with a stack and a control block of
  its own.  The running task does what it likes to the rest of the memory.
* `context_round_trip` — a task is resumed in the context of its last call, and a new task
  is entered at the trampoline.

`CR3` is left out: a page directory does not change what is on the kernel's stacks.
-/

namespace BenmoshOS.Task

open X86 Exec

/-! ## One call -/

/-- The frame of a suspended task, from the saved stack pointer up.  `x` is the word that
`popad` skips. -/
def frame (c : Machine) (x : BitVec 32) : List (BitVec 32) :=
  [c.edi, c.esi, c.ebp, x, c.ebx, c.edx, c.ecx, c.eax, c.eflags, c.eip]

/-- The machine as its caller knows it: without the return address, which is where it goes
on. -/
def caller (m : Machine) : Machine := { m with esp := m.esp + 4, eip := m.top }

/-- The general registers, the flags and the place of execution are the same. -/
structure SameContext (c m : Machine) : Prop where
  eax : m.eax = c.eax
  ecx : m.ecx = c.ecx
  edx : m.edx = c.edx
  ebx : m.ebx = c.ebx
  esp : m.esp = c.esp
  ebp : m.ebp = c.ebp
  esi : m.esi = c.esi
  edi : m.edi = c.edi
  eflags : m.eflags = c.eflags
  eip : m.eip = c.eip

/-- `pushfd` and `pushad`. -/
def saved (m : Machine) : Machine :=
  pushAll m [m.eflags, m.eax, m.ecx, m.edx, m.ebx, m.esp - 4, m.ebp, m.esi, m.edi]

/-- The memory once `ESP` has been stored. -/
def stored (m : Machine) : Machine :=
  (saved m).write ((saved m).read ((saved m).esp + 40)) (saved m).esp

theorem esp_saved (m : Machine) : (saved m).esp = m.esp - 36 := esp_pushAll _ _

theorem block_saved (m : Machine) : block [.pushfd, .pushad] m = saved m := by
  have heval : block [.pushfd, .pushad] m = Instr.eval .pushad (m.push m.eflags) := rfl
  rw [heval, eval_pushad, saved]
  simp only [pushAll_cons, push_eax, push_ecx, push_edx, push_ebx, push_esp, push_ebp, push_esi,
    push_edi]

/-- The code up to the conditional jump. -/
theorem saveCode_stored (m : Machine) : (block saveCode m).mem = (stored m).mem ∧
    (block saveCode m).edx = (stored m).read ((saved m).esp + 44) := by
  have hrest : ∀ n : Machine, (block (saveCode.drop 2) n).mem =
        (n.write (n.read (n.esp + 40)) n.esp).mem ∧
      (block (saveCode.drop 2) n).edx =
        (n.write (n.read (n.esp + 40)) n.esp).read (n.esp + 44) := fun _ => ⟨rfl, rfl⟩
  rw [show saveCode = [.pushfd, .pushad] ++ saveCode.drop 2 from rfl, block_append, block_saved]
  exact hrest (saved m)

/-- The code from the label on reads a frame. -/
theorem restoreCode_frame {b c : Machine} {x : BitVec 32} (h : WordsAt b b.edx (frame c x))
    (hesp : b.edx = c.esp - 40) : SameContext c (Instr.eval .ret (block restoreCode b)) := by
  obtain ⟨hedi, hesi, hebp, -, hebx, hedx, hecx, heax, heflags, heip, -⟩ := h
  refine ⟨heax, hecx, hedx, hebx, ?_, hebp, hesi, hedi, heflags, heip⟩
  show b.edx + 4 + 4 + 4 + 4 + 4 + 4 + 4 + 4 + 4 + 4 = c.esp
  rw [hesp]
  bv_omega

theorem mem_restoreCode (b : Machine) : (Instr.eval .ret (block restoreCode b)).mem = b.mem := by
  rw [eval_mem _ rfl, block_mem (by decide)]

/-- What is left to do behind the jump. -/
theorem loop_restoreCode (fuel : Nat) (b : Machine) :
    Exec.loop (fetch switchContextCode) (fuel + 4) (10, b) =
      .ret (Instr.eval .ret (block restoreCode b)) := by
  rw [show fuel + 4 = fuel + 1 + restoreCode.length from rfl,
    loop_block restoreCode (by decide) (by decide)]
  exact Exec.loop_leave rfl

/-- **One call of `switch_context`.**  It returns, with the memory in which the frame and
the stack pointer of the caller are stored; and when there is a frame at `new_esp` then, it
returns in the context of that frame. -/
theorem switchContext_spec (m : Machine) {fuel : Nat} (hf : 14 ≤ fuel) :
    ∃ m', run switchContextCode fuel m = .ret m' ∧ m'.mem = (stored m).mem ∧
      ∀ c x, (stored m).read ((saved m).esp + 44) = c.esp - 40 →
        WordsAt (stored m) (c.esp - 40) (frame c x) → SameContext c m' := by
  obtain ⟨fuel, rfl⟩ : ∃ k, fuel = k + 14 := ⟨fuel - 14, by omega⟩
  obtain ⟨hmem, hedx⟩ := saveCode_stored m
  -- whether the jump is taken or not, the rest starts from the stored memory
  have hend : ∀ b, b.mem = (stored m).mem → b.edx = (stored m).read ((saved m).esp + 44) →
      (Instr.eval .ret (block restoreCode b)).mem = (stored m).mem ∧
        ∀ c x, (stored m).read ((saved m).esp + 44) = c.esp - 40 →
          WordsAt (stored m) (c.esp - 40) (frame c x) →
          SameContext c (Instr.eval .ret (block restoreCode b)) := by
    intro b hb hnew
    refine ⟨(mem_restoreCode b).trans hb, fun c x hc hframe => ?_⟩
    rw [hc] at hnew
    have hwords : WordsAt b (c.esp - 40) (frame c x) :=
      hframe.congr (show 4 * 10 ≤ 2 ^ 32 by decide) fun y _ => congrFun hb y
    exact restoreCode_frame (x := x) (by rwa [hnew]) hnew
  rw [run, show fuel + 14 = fuel + 6 + saveCode.length from rfl,
    loop_block saveCode (by decide) (by decide), show 0 + saveCode.length = 8 from rfl]
  generalize block saveCode m = b at hmem hedx
  by_cases hzf : b.eflags.getLsbD zf = true
  · have hjump : fetch switchContextCode (8, b) = .ret (.inl (10, b)) := by
      simp only [fetch, hzf]
      rfl
    rw [Exec.loop_again hjump, loop_restoreCode (fuel + 1)]
    exact ⟨_, rfl, hend b hmem hedx⟩
  · have hnext : fetch switchContextCode (8, b) = .ret (.inl (9, b)) := by
      simp only [fetch, hzf]
      rfl
    have hload : fetch switchContextCode (9, b) = .ret (.inl (10, { b with cr3 := b.ecx })) := rfl
    rw [Exec.loop_again hnext, Exec.loop_again hload, loop_restoreCode fuel]
    exact ⟨_, rfl, hend { b with cr3 := b.ecx } hmem hedx⟩

/-- The pushes leave everything from the stack pointer up as it is. -/
theorem mem_saved {m : Machine} {x : BitVec 32} (h : 36 ≤ above (m.esp - 36) x) :
    (saved m).mem x = m.mem x :=
  mem_pushAll (show 4 * 9 ≤ 2 ^ 32 by decide) h

theorem read_saved {m : Machine} {a : BitVec 32}
    (h : ∀ x, above a x < 4 → 36 ≤ above (m.esp - 36) x) : (saved m).read a = m.read a :=
  read_congr fun x hx => mem_saved (h x hx)

/-- The bytes of the frame that a call leaves on the stack, its return address and its
arguments do not meet the place where `ESP` is stored. -/
def FieldApart (m : Machine) : Prop :=
  ∀ x, above (currentEspPtr m) x < 4 → 52 ≤ above (m.esp - 36) x

/-- **What a call leaves behind**: its frame, the stack pointer in the control block, and
everything else as it was. -/
theorem stored_spec {m : Machine} (h : FieldApart m) :
    (stored m).read (currentEspPtr m) = m.esp - 36 ∧
      WordsAt (stored m) (m.esp - 36) (frame (caller m) (m.esp - 4)) ∧
      (stored m).read ((saved m).esp + 44) = newEsp m ∧
      ∀ x, 36 ≤ above (m.esp - 36) x → 4 ≤ above (currentEspPtr m) x →
        (stored m).mem x = m.mem x := by
  have hptr : (saved m).read ((saved m).esp + 40) = currentEspPtr m := by
    rw [esp_saved, show m.esp - 36 + 40 = m.esp + 4 by bv_omega]
    refine read_saved fun x hx => ?_
    unfold above at hx ⊢
    bv_omega
  have hframe : WordsAt (saved m) (saved m).esp (frame (caller m) (m.esp - 4)) := by
    have htop : WordsAt m m.esp [m.top] := ⟨rfl, trivial⟩
    exact htop.pushAll (show 4 * (9 + 1) ≤ 2 ^ 32 by decide)
  rw [esp_saved] at hframe
  have hfar : ∀ x, above (m.esp - 36) x < 52 → (stored m).mem x = (saved m).mem x := by
    intro x hx
    rw [stored, hptr]
    refine mem_write_of_le ?_
    by_contra hlt
    have := h x (by omega)
    omega
  refine ⟨?_, ?_, ?_, fun x hx hx' => ?_⟩
  · rw [stored, hptr, read_write_self, esp_saved]
  · refine hframe.congr (show 4 * 10 ≤ 2 ^ 32 by decide) fun x hx => hfar x ?_
    have hlt : above (m.esp - 36) x < 4 * 10 := hx
    omega
  · rw [esp_saved, show m.esp - 36 + 44 = m.esp + 8 by bv_omega]
    calc (stored m).read (m.esp + 8)
        = (saved m).read (m.esp + 8) := read_congr fun x hx => hfar x (by
          unfold above at hx ⊢
          bv_omega)
      _ = m.read (m.esp + 8) := read_saved fun x hx => by
          unfold above at hx ⊢
          bv_omega
  · rw [stored, hptr, mem_write_of_le hx']
    exact mem_saved hx

/-! ## Many tasks on one machine -/

/-- Where a task keeps its stack and the `esp` field of its control block. -/
structure Area where
  base : Nat
  top : Nat
  espField : Nat
  base_le : base ≤ top
  top_lt : top < 2 ^ 32
  field_lt : espField + 4 < 2 ^ 32
  apart : espField + 4 ≤ base ∨ top ≤ espField

namespace Area

/-- The bytes of a task. -/
def Owns (t : Area) (x : BitVec 32) : Prop :=
  (t.base ≤ x.toNat ∧ x.toNat < t.top) ∨ (t.espField ≤ x.toNat ∧ x.toNat < t.espField + 4)

/-- Two tasks have no byte in common. -/
def Apart (t u : Area) : Prop := ∀ x, t.Owns x → ¬ u.Owns x

theorem Apart.symm {t u : Area} (h : t.Apart u) : u.Apart t := fun x hu ht => h x ht hu

/-- The address of the `esp` field. -/
def field (t : Area) : BitVec 32 := BitVec.ofNat 32 t.espField

theorem toNat_field (t : Area) : t.field.toNat = t.espField := by
  have hlt := t.field_lt
  rw [field, BitVec.toNat_ofNat, Nat.mod_eq_of_lt (by omega)]

theorem owns_field {t : Area} {x : BitVec 32} (h : above t.field x < 4) : t.Owns x := by
  have hfield := t.toNat_field
  have hlt := t.field_lt
  unfold above at h
  exact Or.inr (by bv_omega)

end Area

/-- What a suspended task did last: it called `switch_context`, which it sees as machine
`c`, or it was created with an entry point. -/
inductive Origin where
  | called (c : Machine)
  | created (entryPoint : Nat)

/-- The processor, the running task and the others. -/
structure System where
  machine : Machine
  current : Area
  suspended : List (Area × Origin)

/-- The frame that `task_create` builds by hand below the top of the stack; `ESP` stands for
its variable `sp`. -/
def createdStack (img : Image) (m : Machine) (t : Area) (entryPoint : Nat) : Machine :=
  pushAll { m with esp := BitVec.ofNat 32 t.top }
    ((initialStack img entryPoint).map (BitVec.ofNat 32))

/-- The memory after `task_create`: the frame, and the `esp` field. -/
def createdMachine (img : Image) (m : Machine) (t : Area) (entryPoint : Nat) : Machine :=
  { m with mem := ((createdStack img m t entryPoint).write t.field
      (createdStack img m t entryPoint).esp).mem }

/-- `task_yield` has called `switch_context` in the current task: the arguments are on the
stack, which has room for the frame. -/
structure Calls (m : Machine) (current next : Area) : Prop where
  oldEsp : currentEspPtr m = current.field
  newEsp : newEsp m = m.read next.field
  room : current.base + 36 ≤ m.esp.toNat
  args : m.esp.toNat + 16 ≤ current.top

/-- The steps of the system. -/
inductive System.Step (img : Image) : System → System → Prop
  /-- The running task computes: only the bytes of the suspended tasks are safe. -/
  | work {s : System} {m : Machine}
      (h : ∀ p ∈ s.suspended, ∀ x, p.1.Owns x → m.mem x = s.machine.mem x) :
      Step img s { s with machine := m }
  /-- `task_create` with a stack and a control block of its own. -/
  | create {s : System} {t : Area} {entryPoint : Nat} (hsize : t.top = t.base + stackSize)
      (hcurrent : t.Apart s.current) (hsuspended : ∀ p ∈ s.suspended, t.Apart p.1) :
      Step img s { s with
        machine := createdMachine img s.machine t entryPoint
        suspended := (t, .created entryPoint) :: s.suspended }
  /-- A task that will not run any more is released. -/
  | reap {s : System} {l₁ l₂ : List (Area × Origin)} {p : Area × Origin}
      (h : s.suspended = l₁ ++ p :: l₂) : Step img s { s with suspended := l₁ ++ l₂ }
  /-- `task_yield` switches to a suspended task. -/
  | switch {s : System} {l₁ l₂ : List (Area × Origin)} {t : Area} {o : Origin} {m : Machine}
      {fuel : Nat} (h : s.suspended = l₁ ++ (t, o) :: l₂) (hcalls : Calls s.machine s.current t)
      (hrun : run switchContextCode fuel s.machine = .ret m) :
      Step img s ⟨m, t, (s.current, .called (caller s.machine)) :: (l₁ ++ l₂)⟩

/-- The states reached from one running task, on a machine in any state. -/
inductive System.Reaches (img : Image) : System → Prop
  | init (m : Machine) (t : Area) : Reaches img ⟨m, t, []⟩
  | step {s s' : System} : Reaches img s → Step img s s' → Reaches img s'

/-- **What a task finds when it is resumed.**  After a call, the registers, the flags, the
place of execution and the stack above it are what they were at the call.  At the first
switch, execution is at the trampoline, with the entry point as its argument. -/
def Resumed (img : Image) (t : Area) : Origin → Machine → Prop
  | .called c, m => SameContext c m ∧
      ∀ x : BitVec 32, c.esp.toNat ≤ x.toNat → x.toNat < t.top → m.mem x = c.mem x
  | .created entryPoint, m =>
      m.eip = BitVec.ofNat 32 img.taskExitTrampoline ∧
      m.read (m.esp + 4) = BitVec.ofNat 32 entryPoint ∧ m.eflags = 0x202 ∧
      t.base ≤ m.esp.toNat ∧ m.esp.toNat ≤ t.top

/-! ## The memory of a suspended task -/

/-- The task is to go on in the context of machine `c`: its frame is in memory where its
`esp` field says, and its stack above the frame is that of `c`. -/
structure Waits (m : Machine) (t : Area) (c : Machine) : Prop where
  low : t.base + 40 ≤ c.esp.toNat
  high : c.esp.toNat ≤ t.top
  field : m.read t.field = c.esp - 40
  frame : ∃ x, WordsAt m (c.esp - 40) (frame c x)
  stack : ∀ x : BitVec 32, c.esp.toNat ≤ x.toNat → x.toNat < t.top → m.mem x = c.mem x

/-- The context that a task is to go on in. -/
def Context (img : Image) (t : Area) : Origin → Machine → Prop
  | .called c, c' => c' = c
  | .created entryPoint, c =>
      c.eip = BitVec.ofNat 32 img.taskExitTrampoline ∧ c.eflags = 0x202 ∧
      c.esp.toNat + 8 = t.top ∧ c.read (c.esp + 4) = BitVec.ofNat 32 entryPoint

/-- A suspended task, in memory. -/
def Suspended (img : Image) (m : Machine) (t : Area) (o : Origin) : Prop :=
  ∃ c, Context img t o c ∧ Waits m t c

variable {img : Image} {m m' : Machine} {t u : Area} {o : Origin}

/-- What a suspended task needs lies in its own bytes. -/
theorem Waits.congr {c : Machine} (h : Waits m t c) (hmem : ∀ x, t.Owns x → m'.mem x = m.mem x) :
    Waits m' t c := by
  obtain ⟨hlow, hhigh, hfield, ⟨x, hframe⟩, hstack⟩ := h
  have htop := t.top_lt
  refine ⟨hlow, hhigh, ?_, ⟨x, ?_⟩, fun y hy hy' => ?_⟩
  · rw [← hfield]
    exact read_congr fun y hy => hmem y (Area.owns_field hy)
  · refine hframe.congr (show 4 * 10 ≤ 2 ^ 32 by decide) fun y hy => hmem y (Or.inl ?_)
    have hlt : above (c.esp - 40) y < 40 := hy
    unfold above at hlt
    constructor <;> bv_omega
  · rw [hmem y (Or.inl ⟨by omega, hy'⟩)]
    exact hstack y hy hy'

theorem Suspended.congr (h : Suspended img m t o) (hmem : ∀ x, t.Owns x → m'.mem x = m.mem x) :
    Suspended img m' t o := by
  obtain ⟨c, hctx, hwaits⟩ := h
  exact ⟨c, hctx, hwaits.congr hmem⟩

/-- A machine that has read the frame of a task is one in which the task is resumed. -/
theorem Waits.resumed {c : Machine} (h : Waits m t c) (hctx : Context img t o c)
    (hsame : SameContext c m') (hmem : m'.mem = m.mem) : Resumed img t o m' := by
  have htop := t.top_lt
  have hlow := h.low
  have hstack : ∀ x : BitVec 32, c.esp.toNat ≤ x.toNat → x.toNat < t.top →
      m'.mem x = c.mem x := fun x hx hx' => by rw [hmem, h.stack x hx hx']
  cases o with
  | called c' =>
      obtain rfl : c = c' := hctx
      exact ⟨hsame, hstack⟩
  | created entryPoint =>
      obtain ⟨heip, heflags, hesp, hargument⟩ := hctx
      refine ⟨hsame.eip.trans heip, ?_, hsame.eflags.trans heflags, ?_, ?_⟩
      · rw [hsame.esp, ← hargument]
        refine read_congr fun x hx => ?_
        unfold above at hx
        exact hstack x (by bv_omega) (by bv_omega)
      · rw [hsame.esp]
        omega
      · rw [hsame.esp]
        omega

theorem esp_createdStack (entryPoint : Nat) :
    (createdStack img m t entryPoint).esp = BitVec.ofNat 32 t.top - 48 := esp_pushAll _ _

/-- The words that `task_create` has pushed, from `ESP` up. -/
theorem words_createdStack (entryPoint : Nat) :
    WordsAt (createdStack img m t entryPoint) (BitVec.ofNat 32 t.top - 48)
      ([0, 0, 0, 0, 0, 0, 0, 0, 0x202, BitVec.ofNat 32 img.taskExitTrampoline] ++
        [0, BitVec.ofNat 32 entryPoint]) := by
  have hnil : WordsAt { m with esp := BitVec.ofNat 32 t.top } (BitVec.ofNat 32 t.top) [] := trivial
  have hwords : WordsAt (createdStack img m t entryPoint) (createdStack img m t entryPoint).esp
      (((initialStack img entryPoint).map (BitVec.ofNat 32)).reverse ++ []) :=
    hnil.pushAll (show 4 * (12 + 0) ≤ 2 ^ 32 by decide)
  rw [esp_createdStack] at hwords
  exact hwords

theorem read_field_created (entryPoint : Nat) :
    (createdMachine img m t entryPoint).read t.field = BitVec.ofNat 32 t.top - 48 := by
  calc (createdMachine img m t entryPoint).read t.field
      = ((createdStack img m t entryPoint).write t.field
          (createdStack img m t entryPoint).esp).read t.field := read_congr fun _ _ => rfl
    _ = (createdStack img m t entryPoint).esp := read_write_self _ _ _
    _ = BitVec.ofNat 32 t.top - 48 := esp_createdStack entryPoint

section Create

variable (hsize : t.top = t.base + stackSize) (entryPoint : Nat)

include hsize

/-- The bytes that are not those of the new task are left alone. -/
theorem mem_createdMachine {x : BitVec 32} (hx : ¬ t.Owns x) :
    (createdMachine img m t entryPoint).mem x = m.mem x := by
  have htop := t.top_lt
  have hsp : (BitVec.ofNat 32 t.top).toNat = t.top := by
    rw [BitVec.toNat_ofNat, Nat.mod_eq_of_lt htop]
  unfold stackSize at hsize
  have hstack : 48 ≤ above (BitVec.ofNat 32 t.top - 48) x := by
    by_contra hlt
    unfold above at hlt
    refine hx (Or.inl ?_)
    constructor <;> bv_omega
  calc (createdMachine img m t entryPoint).mem x
      = (createdStack img m t entryPoint).mem x := mem_write_of_le (by
        by_contra hlt
        exact hx (Area.owns_field (by omega)))
    _ = m.mem x := mem_pushAll (show 4 * 12 ≤ 2 ^ 32 by decide) hstack

/-- **A new task waits at the trampoline.** -/
theorem suspended_created :
    Suspended img (createdMachine img m t entryPoint) t (.created entryPoint) := by
  have htop := t.top_lt
  have hsp : (BitVec.ofNat 32 t.top).toNat = t.top := by
    rw [BitVec.toNat_ofNat, Nat.mod_eq_of_lt htop]
  unfold stackSize at hsize
  -- the `esp` field is no part of the stack
  have hmem : ∀ x, above (BitVec.ofNat 32 t.top - 48) x < 48 →
      (createdMachine img m t entryPoint).mem x = (createdStack img m t entryPoint).mem x := by
    intro x hx
    refine mem_write_of_le ?_
    have hfield := t.toNat_field
    have hapart := t.apart
    have hlt := t.field_lt
    unfold above at hx ⊢
    bv_omega
  have hwords : WordsAt (createdMachine img m t entryPoint) (BitVec.ofNat 32 t.top - 48)
      ([0, 0, 0, 0, 0, 0, 0, 0, 0x202, BitVec.ofNat 32 img.taskExitTrampoline] ++
        [0, BitVec.ofNat 32 entryPoint]) :=
    (words_createdStack entryPoint).congr (show 4 * 12 ≤ 2 ^ 32 by decide) hmem
  obtain ⟨hframe, -, hargument, -⟩ := hwords.append
  let c : Machine :=
    { createdMachine img m t entryPoint with
      eax := 0, ecx := 0, edx := 0, ebx := 0, ebp := 0, esi := 0, edi := 0
      esp := BitVec.ofNat 32 t.top - 8
      eflags := 0x202
      eip := BitVec.ofNat 32 img.taskExitTrampoline }
  have hesp : c.esp.toNat + 8 = t.top := by
    show (BitVec.ofNat 32 t.top - 8).toNat + 8 = t.top
    bv_omega
  have hsp' : c.esp - 40 = BitVec.ofNat 32 t.top - 48 := by
    show BitVec.ofNat 32 t.top - 8 - 40 = BitVec.ofNat 32 t.top - 48
    bv_omega
  refine ⟨c, ⟨rfl, rfl, hesp, ?_⟩, by omega, by omega, ?_, ⟨0, ?_⟩, fun _ _ _ => rfl⟩
  · have haddr : c.esp + 4 = BitVec.ofNat 32 t.top - 48 + BitVec.ofNat 32 (4 * 10) + 4 := by
      show BitVec.ofNat 32 t.top - 8 + 4 = _
      bv_omega
    calc c.read (c.esp + 4)
        = (createdMachine img m t entryPoint).read (c.esp + 4) := read_congr fun _ _ => rfl
      _ = BitVec.ofNat 32 entryPoint := by
        rw [haddr]
        exact hargument
  · rw [read_field_created, hsp']
  · rw [hsp']
    exact hframe

end Create

/-! ## A switch -/

section Switch

/-- The `esp` field of the outgoing task is none of the bytes on its stack. -/
theorem Calls.fieldApart (h : Calls m u t) : FieldApart m := by
  intro x hx
  rw [h.oldEsp] at hx
  have hroom := h.room
  have hargs := h.args
  have htop := u.top_lt
  have hfield := u.toNat_field
  have hlt := u.field_lt
  have hapart := u.apart
  unfold above at hx ⊢
  bv_omega

/-- **A switch** from task `u` to task `t`: it returns in task `t`, which is resumed; task
`u` waits in the context of its call; and only bytes of task `u` have changed. -/
theorem switch_spec (h : Calls m u t) (hapart : u.Apart t) (hwaits : Suspended img m t o)
    {fuel : Nat} (hfuel : 14 ≤ fuel) :
    ∃ m', run switchContextCode fuel m = .ret m' ∧ Resumed img t o m' ∧
      Suspended img m' u (.called (caller m)) ∧ ∀ x, ¬ u.Owns x → m'.mem x = m.mem x := by
  have hroom := h.room
  have hargs := h.args
  have htop := u.top_lt
  obtain ⟨m', hrun, hmem, hctx⟩ := switchContext_spec m hfuel
  obtain ⟨hfield, hframe, hnew, hrest⟩ := stored_spec h.fieldApart
  -- outside of the bytes of `u` the memory is what it was
  have hmem' : ∀ x, ¬ u.Owns x → (stored m).mem x = m.mem x := by
    intro x hx
    refine hrest x ?_ ?_
    · by_contra hlt
      unfold above at hlt
      refine hx (Or.inl ?_)
      constructor <;> bv_omega
    · rw [h.oldEsp]
      by_contra hlt
      exact hx (Area.owns_field (by omega))
  obtain ⟨c, hcontext, hwaits⟩ := hwaits
  have hwaits' : Waits (stored m) t c := hwaits.congr fun x hx => hmem' x fun hu => hapart x hu hx
  refine ⟨m', hrun, ?_, ⟨caller m, rfl, ?_⟩, fun x hx => by rw [hmem, hmem' x hx]⟩
  · obtain ⟨x, hx⟩ := hwaits'.frame
    refine hwaits'.resumed hcontext (hctx c x ?_ hx) hmem
    rw [hnew, h.newEsp, hwaits.field]
  · have hesp : (caller m).esp - 40 = m.esp - 36 := by
      show m.esp + 4 - 40 = m.esp - 36
      bv_omega
    have htoNat : (caller m).esp.toNat = m.esp.toNat + 4 := by
      show (m.esp + 4).toNat = m.esp.toNat + 4
      bv_omega
    refine ⟨by omega, by omega, ?_, ⟨m.esp - 4, ?_⟩, fun x hx hx' => ?_⟩
    · rw [hesp, ← hfield, h.oldEsp]
      exact read_congr fun x _ => congrFun hmem x
    · rw [hesp]
      exact hframe.congr (show 4 * 10 ≤ 2 ^ 32 by decide) fun x _ => congrFun hmem x
    · show m'.mem x = m.mem x
      rw [hmem]
      refine hrest x ?_ ?_
      · unfold above
        bv_omega
      · rw [h.oldEsp]
        have hfield := u.toNat_field
        have hlt := u.field_lt
        have hapart := u.apart
        unfold above
        bv_omega

end Switch

/-! ## Runs -/

/-- No two tasks share a byte, and every suspended task is in memory. -/
structure System.Inv (img : Image) (s : System) : Prop where
  current : ∀ p ∈ s.suspended, s.current.Apart p.1
  apart : s.suspended.Pairwise fun p q => p.1.Apart q.1
  waits : ∀ p ∈ s.suspended, Suspended img s.machine p.1 p.2

/-- The invariant for the tasks that are left when one is taken out. -/
theorem System.Inv.split {s : System} {l₁ l₂ : List (Area × Origin)} {p : Area × Origin}
    (h : s.Inv img) (hs : s.suspended = l₁ ++ p :: l₂) :
    (∀ q ∈ l₁ ++ l₂, q ∈ s.suspended) ∧ (∀ q ∈ l₁ ++ l₂, p.1.Apart q.1) ∧
      (l₁ ++ l₂).Pairwise fun p q => p.1.Apart q.1 := by
  have hpair := h.apart
  rw [hs] at hpair
  have hsub : List.Sublist (l₁ ++ l₂) (l₁ ++ p :: l₂) :=
    (List.Sublist.refl l₁).append (List.sublist_cons_self p l₂)
  refine ⟨fun q hq => hs ▸ hsub.subset hq, fun q hq => ?_, hpair.sublist hsub⟩
  have hfront := (List.perm_middle.pairwise_iff fun h => Area.Apart.symm h).1 hpair
  exact (List.pairwise_cons.1 hfront).1 q hq

/-- **One step** keeps the invariant. -/
theorem System.Inv.step {s s' : System} (h : s.Inv img) (hstep : System.Step img s s') :
    s'.Inv img := by
  cases hstep with
  | work hmem =>
      exact ⟨h.current, h.apart, fun p hp => (h.waits p hp).congr (hmem p hp)⟩
  | @create t entryPoint hsize hcurrent hsuspended =>
      refine ⟨fun p hp => ?_, List.pairwise_cons.2 ⟨hsuspended, h.apart⟩, fun p hp => ?_⟩
      · rcases List.mem_cons.1 hp with rfl | hp
        · exact hcurrent.symm
        · exact h.current p hp
      · rcases List.mem_cons.1 hp with rfl | hp
        · exact suspended_created hsize entryPoint
        · exact (h.waits p hp).congr fun x hx =>
            mem_createdMachine hsize entryPoint fun ht => hsuspended p hp x ht hx
  | reap hs =>
      obtain ⟨hmem, -, hpair⟩ := h.split hs
      exact ⟨fun q hq => h.current q (hmem q hq), hpair, fun q hq => h.waits q (hmem q hq)⟩
  | @switch l₁ l₂ t o m fuel hs hcalls hrun =>
      obtain ⟨hmem, hapart, hpair⟩ := h.split hs
      have ht : (t, o) ∈ s.suspended := by rw [hs]; simp
      obtain ⟨m', hrun', -, hwaits, hmem'⟩ :=
        switch_spec hcalls (h.current _ ht) (h.waits _ ht) (Nat.le_add_left 14 fuel)
      -- a call has one result, whatever the fuel
      obtain rfl : m = m' := by
        have hmore := loop_mono hrun (Nat.le_add_right fuel 14)
        exact Exec.ret.inj (hmore.symm.trans hrun')
      refine ⟨fun p hp => ?_, List.pairwise_cons.2 ⟨fun q hq => h.current q (hmem q hq), hpair⟩,
        fun p hp => ?_⟩
      · rcases List.mem_cons.1 hp with rfl | hp
        · exact (h.current _ ht).symm
        · exact hapart p hp
      · rcases List.mem_cons.1 hp with rfl | hp
        · exact hwaits
        · exact (h.waits p (hmem p hp)).congr fun x hx =>
            hmem' x fun hu => h.current p (hmem p hp) x hu hx

/-- **Every reachable state.** -/
theorem System.Reaches.inv {s : System} (h : System.Reaches img s) : s.Inv img := by
  induction h with
  | init m t => exact ⟨by simp, List.Pairwise.nil, by simp⟩
  | step _ hstep ih => exact ih.step hstep

/-- **Context switch round trip.**  In every state reached by any number of tasks with
stacks of their own, a call of `switch_context` by `task_yield` returns, and it returns in
the task switched to: in the context in which that task last called `switch_context`, with
its stack as it was, or, for a new task, at the trampoline with the entry point as its
argument, with `EFLAGS` 0x202 and `ESP` on the new stack. -/
theorem context_round_trip {s : System} (h : System.Reaches img s) {o : Origin}
    (ht : (t, o) ∈ s.suspended) (hcalls : Calls s.machine s.current t) {fuel : Nat}
    (hfuel : 14 ≤ fuel) :
    ∃ m', run switchContextCode fuel s.machine = .ret m' ∧ Resumed img t o m' := by
  have hinv := h.inv
  obtain ⟨m', hrun, hresumed, -, -⟩ :=
    switch_spec hcalls (hinv.current _ ht) (hinv.waits _ ht) hfuel
  exact ⟨m', hrun, hresumed⟩

/-! ## A first switch -/

/-- The kernel's own task. -/
def kernelArea : Area :=
  { base := 0x80000, top := 0x90000, espField := 0x20000,
    base_le := by decide, top_lt := by decide, field_lt := by decide, apart := by decide }

/-- A new task, with its control block and its stack on the heap. -/
def newArea : Area :=
  { base := 0x400040, top := 0x401040, espField := 0x400008,
    base_le := by decide, top_lt := by decide, field_lt := by decide, apart := by decide }

theorem apart_areas : newArea.Apart kernelArea := by
  rintro x (⟨h, -⟩ | ⟨h, -⟩) (⟨-, h'⟩ | ⟨-, h'⟩)
  · exact absurd (h.trans_lt h') (by decide)
  · exact absurd (h.trans_lt h') (by decide)
  · exact absurd (h.trans_lt h') (by decide)
  · exact absurd (h.trans_lt h') (by decide)

/-- The kernel's own task has created a task and is about to switch to it. -/
def firstSwitch : System :=
  { machine := createdMachine smallImage (callMachine 0x20000 0x401010 0 0 0) newArea 0x9000
    current := kernelArea
    suspended := [(newArea, .created 0x9000)] }

theorem calls_firstSwitch : Calls firstSwitch.machine kernelArea newArea := by
  obtain ⟨hptr, hnew, -⟩ := callMachine_args 0x20000 0x401010 0 0 0
  -- the arguments are not among the bytes of the new task
  have hread : ∀ a : BitVec 32, 0x8f000 ≤ a.toNat → a.toNat < 0x8fff0 →
      firstSwitch.machine.read a = (callMachine 0x20000 0x401010 0 0 0).read a := by
    intro a hle hlt
    refine read_congr fun x hx => mem_createdMachine rfl _ fun howns => ?_
    unfold above at hx
    rcases howns with ⟨h, -⟩ | ⟨h, -⟩
    · exact absurd (h.trans_lt (show x.toNat < 0x90000 by bv_omega)) (by decide)
    · exact absurd (h.trans_lt (show x.toNat < 0x90000 by bv_omega)) (by decide)
  refine ⟨?_, ?_, by decide, by decide⟩
  · exact (hread 0x8f004 (by decide) (by decide)).trans hptr
  · have hfield : firstSwitch.machine.read newArea.field = BitVec.ofNat 32 newArea.top - 48 :=
      read_field_created 0x9000
    calc newEsp firstSwitch.machine
        = newEsp (callMachine 0x20000 0x401010 0 0 0) := hread 0x8f008 (by decide) (by decide)
      _ = 0x401010 := hnew
      _ = firstSwitch.machine.read newArea.field := hfield.symm

/-- The first switch to a new task. -/
theorem context_round_trip_first : ∃ m', run switchContextCode 14 firstSwitch.machine = .ret m' ∧
    Resumed smallImage newArea (.created 0x9000) m' :=
  have hcreate : System.Step smallImage ⟨callMachine 0x20000 0x401010 0 0 0, kernelArea, []⟩
      firstSwitch := System.Step.create rfl apart_areas (by simp)
  context_round_trip ((System.Reaches.init _ _).step hcreate) List.mem_cons_self calls_firstSwitch
    (le_refl 14)

end BenmoshOS.Task
