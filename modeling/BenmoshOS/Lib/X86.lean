import BenmoshOS.Lib.Exec

/-!
# A fragment of the 32-bit x86 instruction set

The instructions that hand-written kernel code uses to switch stacks and page
directories: moves between registers, memory and `CR3`, the stack instructions for
one word, for all registers and for the flags, one comparison, one conditional jump
and the return.

Memory is a map of bytes and words are little endian, so that words may overlap in
any way.  A program is a list of instructions, and a jump names the index of its
target.  `run` executes a program from a given index until it returns.
-/

namespace BenmoshOS.X86

/-- The general registers. -/
inductive Reg where
  | eax
  | ecx
  | edx
  | ebx
  | esp
  | ebp
  | esi
  | edi
  deriving DecidableEq, Repr

/-- The state of the processor, with `eip` the address of the last return. -/
structure Machine where
  eax : BitVec 32
  ecx : BitVec 32
  edx : BitVec 32
  ebx : BitVec 32
  esp : BitVec 32
  ebp : BitVec 32
  esi : BitVec 32
  edi : BitVec 32
  eflags : BitVec 32
  cr3 : BitVec 32
  eip : BitVec 32
  mem : BitVec 32 → BitVec 8

namespace Machine

/-- The value of a register. -/
def get (m : Machine) : Reg → BitVec 32
  | .eax => m.eax
  | .ecx => m.ecx
  | .edx => m.edx
  | .ebx => m.ebx
  | .esp => m.esp
  | .ebp => m.ebp
  | .esi => m.esi
  | .edi => m.edi

/-- Write a register. -/
def set (m : Machine) (r : Reg) (v : BitVec 32) : Machine :=
  match r with
  | .eax => { m with eax := v }
  | .ecx => { m with ecx := v }
  | .edx => { m with edx := v }
  | .ebx => { m with ebx := v }
  | .esp => { m with esp := v }
  | .ebp => { m with ebp := v }
  | .esi => { m with esi := v }
  | .edi => { m with edi := v }

/-- The word at an address. -/
def read (m : Machine) (a : BitVec 32) : BitVec 32 :=
  m.mem (a + 3) ++ m.mem (a + 2) ++ m.mem (a + 1) ++ m.mem a

/-- Store a word. -/
def write (m : Machine) (a v : BitVec 32) : Machine :=
  { m with mem := fun x =>
      if x = a then v.extractLsb' 0 8
      else if x = a + 1 then v.extractLsb' 8 8
      else if x = a + 2 then v.extractLsb' 16 8
      else if x = a + 3 then v.extractLsb' 24 8
      else m.mem x }

/-- Push a word. -/
def push (m : Machine) (v : BitVec 32) : Machine :=
  ({ m with esp := m.esp - 4 } : Machine).write (m.esp - 4) v

/-- Drop a word from the stack. -/
def drop (m : Machine) : Machine := { m with esp := m.esp + 4 }

/-- The word on top of the stack. -/
def top (m : Machine) : BitVec 32 := m.read m.esp

end Machine

/-- The instructions. -/
inductive Instr where
  /-- `pushfd` -/
  | pushfd
  /-- `pushad` -/
  | pushad
  /-- `popad` -/
  | popad
  /-- `popfd` -/
  | popfd
  /-- `mov dst, [base + disp]` -/
  | load (dst base : Reg) (disp : BitVec 32)
  /-- `mov [base], src` -/
  | store (base src : Reg)
  /-- `mov dst, src` -/
  | mov (dst src : Reg)
  /-- `mov dst, cr3` -/
  | movFromCr3 (dst : Reg)
  /-- `mov cr3, src` -/
  | movToCr3 (src : Reg)
  /-- `cmp a, b` -/
  | cmp (a b : Reg)
  /-- `je target` -/
  | je (target : Nat)
  /-- `ret` -/
  | ret
  deriving DecidableEq, Repr

/-! ## Flags -/

/-- The position of the zero flag in `EFLAGS`. -/
def zf : Nat := 6

/-- Set or clear one bit of `EFLAGS`. -/
def setFlag (flags : BitVec 32) (i : Nat) (b : Bool) : BitVec 32 :=
  if b then flags ||| (1#32 <<< i) else flags &&& ~~~ (1#32 <<< i)

/-- Even parity of the low byte. -/
def parity (v : BitVec 32) : Bool :=
  ((List.range 8).filter fun i => v.getLsbD i).length % 2 == 0

/-- The flags after the subtraction `a - b`: carry, parity, auxiliary carry, sign,
overflow and zero. -/
def subFlags (flags a b : BitVec 32) : BitVec 32 :=
  let d := a - b
  let flags := setFlag flags 0 (a.ult b)
  let flags := setFlag flags 2 (parity d)
  let flags := setFlag flags 4 ((a.extractLsb' 0 4).ult (b.extractLsb' 0 4))
  let flags := setFlag flags 7 d.msb
  let flags := setFlag flags 11 (a.msb != b.msb && d.msb != a.msb)
  setFlag flags zf (d == 0#32)

theorem getLsbD_setFlag_self (flags : BitVec 32) {i : Nat} (hi : i < 32) (b : Bool) :
    (setFlag flags i b).getLsbD i = b := by
  unfold setFlag
  cases b <;> simp [hi]

/-- After a comparison the zero flag tells whether the operands were equal. -/
theorem getLsbD_subFlags_zf (flags a b : BitVec 32) :
    (subFlags flags a b).getLsbD zf = decide (a = b) := by
  unfold subFlags
  rw [getLsbD_setFlag_self _ (by decide)]
  rw [Bool.eq_iff_iff, beq_iff_eq, decide_eq_true_iff]
  exact BitVec.sub_eq_iff_eq_add.trans (by simp)

/-! ## Words in memory -/

theorem read_write_self (m : Machine) (a v : BitVec 32) : (m.write a v).read a = v := by
  have h1 : a + 1 ≠ a := by simp
  have h2 : a + 2 ≠ a := by simp
  have h3 : a + 3 ≠ a := by simp
  have h21 : a + 2 ≠ a + 1 := by simp
  have h31 : a + 3 ≠ a + 1 := by simp
  have h32 : a + 3 ≠ a + 2 := by simp
  simp only [Machine.read, Machine.write, if_true, h1, h2, h3, h21, h31, h32, if_false]
  refine BitVec.eq_of_getLsbD_eq fun i hi => ?_
  simp only [BitVec.getLsbD_append, BitVec.getLsbD_extractLsb']
  split_ifs <;> grind

/-- Words that do not overlap do not disturb each other. -/
theorem read_write_of_far (m : Machine) {a b : BitVec 32} (v : BitVec 32)
    (h : ∀ i j, i < 4 → j < 4 → a + i ≠ b + j) : (m.write b v).read a = m.read a := by
  have hfar : ∀ i : BitVec 32, i < 4 → (m.write b v).mem (a + i) = m.mem (a + i) := fun i hi => by
    have h0 := h i 0#32 hi (by decide)
    rw [BitVec.add_zero] at h0
    simp only [Machine.write, h0, h i 1 hi (by decide), h i 2 hi (by decide),
      h i 3 hi (by decide), if_false]
  have h0 := hfar 0#32 (by decide)
  rw [BitVec.add_zero] at h0
  simp only [Machine.read, hfar 1 (by decide), hfar 2 (by decide), hfar 3 (by decide), h0]

/-! ## Execution -/

/-- The effect of an instruction that is neither a jump nor the return. -/
def Instr.eval (i : Instr) (m : Machine) : Machine :=
  match i with
  | .pushfd => m.push m.eflags
  | .pushad =>
      let esp := m.esp
      let m := (((m.push m.eax).push m.ecx).push m.edx).push m.ebx
      (((m.push esp).push m.ebp).push m.esi).push m.edi
  | .popad =>
      let m := ({ m with edi := m.top } : Machine).drop
      let m := ({ m with esi := m.top } : Machine).drop
      let m := ({ m with ebp := m.top } : Machine).drop
      -- the saved ESP is skipped
      let m := m.drop
      let m := ({ m with ebx := m.top } : Machine).drop
      let m := ({ m with edx := m.top } : Machine).drop
      let m := ({ m with ecx := m.top } : Machine).drop
      ({ m with eax := m.top } : Machine).drop
  | .popfd => ({ m with eflags := m.top } : Machine).drop
  | .load dst base disp => m.set dst (m.read (m.get base + disp))
  | .store base src => m.write (m.get base) (m.get src)
  | .mov dst src => m.set dst (m.get src)
  | .movFromCr3 dst => m.set dst m.cr3
  | .movToCr3 src => { m with cr3 := m.get src }
  | .cmp a b => { m with eflags := subFlags m.eflags (m.get a) (m.get b) }
  | .je _ => m
  | .ret => ({ m with eip := m.top } : Machine).drop

/-- Execute the instruction at index `pc`: go on behind it or at the target of a jump,
or leave at the return.  Running off the end of the program is not modelled. -/
def fetch (code : List Instr) (s : Nat × Machine) : Exec ((Nat × Machine) ⊕ Machine) :=
  match code[s.1]? with
  | none => .spin
  | some .ret => .ret (.inr (Instr.eval .ret s.2))
  | some (.je target) =>
      .ret (.inl (if s.2.eflags.getLsbD zf then target else s.1 + 1, s.2))
  | some i => .ret (.inl (s.1 + 1, i.eval s.2))

/-- Run a program from its first instruction until it returns. -/
def run (code : List Instr) (fuel : Nat) (m : Machine) : Exec Machine :=
  Exec.loop (fetch code) fuel (0, m)

/-! ## Straight-line code -/

/-- The instruction is neither a jump nor the return. -/
def Instr.straight : Instr → Bool
  | .je _ => false
  | .ret => false
  | _ => true

/-- The instruction may change the register. -/
def Instr.writes : Instr → Reg → Bool
  | .pushfd, r => r == .esp
  | .pushad, r => r == .esp
  | .popad, _ => true
  | .popfd, r => r == .esp
  | .load dst _ _, r => r == dst
  | .store _ _, _ => false
  | .mov dst _, r => r == dst
  | .movFromCr3 dst, r => r == dst
  | .movToCr3 _, _ => false
  | .cmp _ _, _ => false
  | .je _, _ => false
  | .ret, r => r == .esp

/-- The instruction may change `CR3`. -/
def Instr.writesCr3 : Instr → Bool
  | .movToCr3 _ => true
  | _ => false

/-- The instruction may change memory. -/
def Instr.writesMem : Instr → Bool
  | .pushfd => true
  | .pushad => true
  | .store _ _ => true
  | _ => false

section Frame

variable (m : Machine) (a v : BitVec 32) (r s : Reg)

@[simp] theorem get_set_self : (m.set r v).get r = v := by cases r <;> rfl

theorem get_set_of_ne (h : s ≠ r) : (m.set r v).get s = m.get s := by
  cases r <;> cases s <;> first | rfl | exact absurd rfl h

@[simp] theorem set_cr3 : (m.set r v).cr3 = m.cr3 := by cases r <;> rfl

@[simp] theorem write_cr3 : (m.write a v).cr3 = m.cr3 := rfl

@[simp] theorem push_cr3 : (m.push v).cr3 = m.cr3 := rfl

@[simp] theorem drop_cr3 : m.drop.cr3 = m.cr3 := rfl

@[simp] theorem set_mem : (m.set r v).mem = m.mem := by cases r <;> rfl

@[simp] theorem drop_mem : m.drop.mem = m.mem := rfl

@[simp] theorem write_get : (m.write a v).get s = m.get s := by cases s <;> rfl

theorem push_get (h : s ≠ .esp) : (m.push v).get s = m.get s := by
  cases s <;> first | rfl | exact absurd rfl h

/-- An instruction keeps the registers it does not write. -/
theorem eval_get {i : Instr} (h : i.writes s = false) : (i.eval m).get s = m.get s := by
  cases i with
  | pushfd => exact push_get m _ s (by simpa [Instr.writes] using h)
  | pushad =>
      have hs : s ≠ .esp := by simpa [Instr.writes] using h
      simp only [Instr.eval, push_get _ _ s hs]
  | popad => simp [Instr.writes] at h
  | popfd =>
      have hs : s ≠ .esp := by simpa [Instr.writes] using h
      cases s <;> first | rfl | exact absurd rfl hs
  | load dst base disp => exact get_set_of_ne m _ dst s (by simpa [Instr.writes] using h)
  | store base src => exact write_get m _ _ s
  | mov dst src => exact get_set_of_ne m _ dst s (by simpa [Instr.writes] using h)
  | movFromCr3 dst => exact get_set_of_ne m _ dst s (by simpa [Instr.writes] using h)
  | movToCr3 src => cases s <;> rfl
  | cmp a b => cases s <;> rfl
  | je target => rfl
  | ret =>
      have hs : s ≠ .esp := by simpa [Instr.writes] using h
      cases s <;> first | rfl | exact absurd rfl hs

/-- Only a move to `CR3` changes it. -/
theorem eval_cr3 {i : Instr} (h : i.writesCr3 = false) : (i.eval m).cr3 = m.cr3 := by
  cases i with
  | movToCr3 src => simp [Instr.writesCr3] at h
  | _ => simp [Instr.eval]

/-- Only pushes and stores change memory. -/
theorem eval_mem {i : Instr} (h : i.writesMem = false) : (i.eval m).mem = m.mem := by
  cases i with
  | pushfd => simp [Instr.writesMem] at h
  | pushad => simp [Instr.writesMem] at h
  | store base src => simp [Instr.writesMem] at h
  | _ => simp [Instr.eval]

end Frame

/-- The effect of a sequence of instructions. -/
def block (is : List Instr) (m : Machine) : Machine := is.foldl (fun m i => i.eval m) m

theorem block_append (is js : List Instr) (m : Machine) :
    block (is ++ js) m = block js (block is m) := List.foldl_append

theorem block_get {is : List Instr} {s : Reg} (h : ∀ i ∈ is, i.writes s = false) (m : Machine) :
    (block is m).get s = m.get s := by
  induction is generalizing m with
  | nil => rfl
  | cons i is ih =>
      rw [block, List.foldl_cons, ← block, ih (fun j hj => h j (by simp [hj])),
        eval_get m s (h i (by simp))]

theorem block_cr3 {is : List Instr} (h : ∀ i ∈ is, i.writesCr3 = false) (m : Machine) :
    (block is m).cr3 = m.cr3 := by
  induction is generalizing m with
  | nil => rfl
  | cons i is ih =>
      rw [block, List.foldl_cons, ← block, ih (fun j hj => h j (by simp [hj])),
        eval_cr3 m (h i (by simp))]

theorem block_mem {is : List Instr} (h : ∀ i ∈ is, i.writesMem = false) (m : Machine) :
    (block is m).mem = m.mem := by
  induction is generalizing m with
  | nil => rfl
  | cons i is ih =>
      rw [block, List.foldl_cons, ← block, ih (fun j hj => h j (by simp [hj])),
        eval_mem m (h i (by simp))]

theorem fetch_straight {code : List Instr} {pc : Nat} {i : Instr} (hi : code[pc]? = some i)
    (hs : i.straight = true) (m : Machine) :
    fetch code (pc, m) = .ret (.inl (pc + 1, i.eval m)) := by
  simp only [fetch, hi]
  cases i <;> first | rfl | simp [Instr.straight] at hs

/-- Straight-line code runs through. -/
theorem loop_block {code : List Instr} (is : List Instr) {pc : Nat}
    (hcode : ∀ j, (h : j < is.length) → code[pc + j]? = some is[j])
    (hs : ∀ i ∈ is, i.straight = true) (fuel : Nat) (m : Machine) :
    Exec.loop (fetch code) (fuel + is.length) (pc, m) =
      Exec.loop (fetch code) fuel (pc + is.length, block is m) := by
  induction is generalizing pc m with
  | nil => rfl
  | cons i is ih =>
      have h0 : code[pc]? = some i := hcode 0 (by simp)
      rw [List.length_cons, ← Nat.add_assoc,
        Exec.loop_again (fetch_straight h0 (hs i (by simp)) m),
        ih (fun j hj => ?_) (fun j hj => hs j (by simp [hj])),
        show pc + (is.length + 1) = pc + 1 + is.length by omega]
      · rfl
      · rw [show pc + 1 + j = pc + (j + 1) by omega, hcode (j + 1) (by simpa using hj)]
        rfl

end BenmoshOS.X86
