import BenmoshOS.Lib.CString
import BenmoshOS.Lib.LittleEndian
import BenmoshOS.Cpu.Stubs

/-!
# The descriptor tables: `cpu/idt/idt.c`, `cpu/gdt/gdt.c`, `kernel/tss/tss.c`

`set_idt_gate` and `gdt_set_gate` put the fields of a descriptor into the scattered bits that the
processor reads.  The code is modelled on bytes of memory, and `gate` and `segment` read a
descriptor as the processor does.

* `gate_setIdtGate`, `segment_gdtSetGate` — what is written is what the processor reads, and the
  other descriptors stay.
* `entered_loadIdt` — with the table of `load_idt`, a program in ring 3 enters the kernel at
  `isr128` by `int 0x80`; every other `int n` ends in the stub of the general protection fault.
* `initTss_tables` — after `init_tss` the processor finds the stack for ring 0 in the task state
  segment, and the segments of `entry.asm` are as they were.
-/

namespace BenmoshOS.Cpu

open LittleEndian

/-! ## The interrupt descriptor table -/

/-- `set_idt_gate`, with the table at `idt`. -/
def setIdtGate (mem : Bytes) (idt num : Nat) (base : UInt32) (sel : UInt16) (flags : UInt8) :
    Bytes :=
  let entry := idt + 8 * num
  let mem := store mem entry (base &&& 0xFFFF).toNat 2
  let mem := store mem (entry + 2) sel.toNat 2
  let mem := store mem (entry + 4) 0 1
  let mem := store mem (entry + 5) flags.toNat 1
  store mem (entry + 6) ((base >>> 16) &&& 0xFFFF).toNat 2

/-- The loop of `load_idt`, up to vector `n`. -/
def loadStubs (mem : Bytes) (idt : Nat) (isrStubTable : Nat → UInt32) : Nat → Bytes
  | 0 => mem
  | i + 1 => setIdtGate (loadStubs mem idt isrStubTable i) idt i (isrStubTable i) 0x08 0x8E

/-- `load_idt`, without the `lidt`. -/
def loadIdt (mem : Bytes) (idt : Nat) (isrStubTable : Nat → UInt32) (isr128 : UInt32) : Bytes :=
  setIdtGate (loadStubs mem idt isrStubTable 48) idt 0x80 isr128 0x08 0xEE

/-- A gate as the processor reads it. -/
structure Gate where
  offset : Nat
  selector : Nat
  typeAttr : Nat
  deriving DecidableEq, Repr

def gate (mem : Bytes) (idt vector : Nat) : Gate :=
  let entry := idt + 8 * vector
  { offset := load mem entry 2 + 0x10000 * load mem (entry + 6) 2
    selector := load mem (entry + 2) 2
    typeAttr := load mem (entry + 5) 1 }

/-- The type of the gate: 14 for an interrupt gate of 32 bits. -/
def Gate.type (g : Gate) : Nat := g.typeAttr % 16

def Gate.dpl (g : Gate) : Nat := g.typeAttr / 32 % 4

def Gate.present (g : Gate) : Bool := 128 ≤ g.typeAttr

/-- What becomes of an interrupt: a handler is entered, or there is a fault. -/
inductive Delivery where
  | handler (offset selector : Nat)
  | fault (vector : Nat)
  deriving DecidableEq, Repr

/-- The checks of the processor.  The level of the gate matters only to an `int n`. -/
def Gate.deliver (g : Gate) (cpl : Nat) (software : Bool) : Delivery :=
  if g.type ≠ 14 then .fault 13
  else if software = true ∧ g.dpl < cpl then .fault 13
  else if g.present then .handler g.offset g.selector
  else .fault 11

/-- Where the kernel is entered in the end, with a fault delivered in its turn. -/
def entered (mem : Bytes) (idt cpl : Nat) (software : Bool) (vector : Nat) : Option (Nat × Nat) :=
  match (gate mem idt vector).deliver cpl software with
  | .handler offset selector => some (offset, selector)
  | .fault vector =>
      match (gate mem idt vector).deliver cpl false with
      | .handler offset selector => some (offset, selector)
      | .fault _ => none

/-- A gate for the kernel and the hardware. -/
theorem deliver_kernel (a cpl : Nat) (software : Bool) :
    Gate.deliver ⟨a, 0x08, 0x8E⟩ cpl software =
      if software = true ∧ 0 < cpl then .fault 13 else .handler a 0x08 := by
  simp [Gate.deliver, Gate.type, Gate.dpl, Gate.present]

/-- A gate for everybody. -/
theorem deliver_user (a : Nat) {cpl : Nat} (hcpl : cpl ≤ 3) (software : Bool) :
    Gate.deliver ⟨a, 0x08, 0xEE⟩ cpl software = .handler a 0x08 := by
  have hlevel : ¬ 3 < cpl := by omega
  simp [Gate.deliver, Gate.type, Gate.dpl, Gate.present, hlevel]

/-- An entry that has not been set. -/
theorem deliver_zero (cpl : Nat) (software : Bool) :
    Gate.deliver ⟨0, 0, 0⟩ cpl software = .fault 13 := by
  simp [Gate.deliver, Gate.type]

section Idt

variable {mem : Bytes} {idt num vector : Nat} {base : UInt32} {sel : UInt16} {flags : UInt8}

/-- The two halves of an address. -/
theorem halves (v : UInt32) :
    (v &&& 0xFFFF).toNat = v.toNat % 2 ^ 16 ∧
      ((v >>> 16) &&& 0xFFFF).toNat = v.toNat / 2 ^ 16 % 2 ^ 16 := by
  refine ⟨?_, ?_⟩
  · rw [UInt32.toNat_and]
    exact Nat.and_two_pow_sub_one_eq_mod _ 16
  · rw [UInt32.toNat_and, UInt32.toNat_shiftRight, Nat.shiftRight_eq_div_pow]
    exact Nat.and_two_pow_sub_one_eq_mod _ 16

/-- The processor reads the gate that was set. -/
theorem gate_setIdtGate : gate (setIdtGate mem idt num base sel flags) idt num =
    ⟨base.toNat, sel.toNat, flags.toNat⟩ := by
  obtain ⟨hlow, hhigh⟩ := halves base
  have hbase := base.toNat_lt
  have hsel : sel.toNat < 256 ^ 2 := sel.toNat_lt
  have hflags : flags.toNat < 256 ^ 1 := flags.toNat_lt
  simp (disch := omega) only [gate, setIdtGate, load_store, load_store_of_apart]
  rw [hlow, hhigh, Nat.mod_eq_of_lt hsel, Nat.mod_eq_of_lt hflags]
  congr 1
  omega

/-- The other gates stay. -/
theorem gate_setIdtGate_of_ne (h : vector ≠ num) :
    gate (setIdtGate mem idt num base sel flags) idt vector = gate mem idt vector := by
  simp (disch := omega) only [gate, setIdtGate, load_store_of_apart]

/-- The table behind the loop. -/
theorem gate_loadStubs {stubs : Nat → UInt32} (n : Nat) :
    gate (loadStubs mem idt stubs n) idt vector =
      if vector < n then ⟨(stubs vector).toNat, 0x08, 0x8E⟩ else gate mem idt vector := by
  induction n with
  | zero => rfl
  | succ n ih =>
      rw [loadStubs]
      by_cases hv : vector = n
      · subst hv
        rw [gate_setIdtGate, if_pos (Nat.lt_succ_self vector)]
        rfl
      · rw [gate_setIdtGate_of_ne hv, ih]
        by_cases hlt : vector < n
        · rw [if_pos hlt, if_pos (Nat.lt_succ_of_lt hlt)]
        · rw [if_neg hlt, if_neg (by omega)]

/-- The whole table. -/
theorem gate_loadIdt {stubs : Nat → UInt32} {isr128 : UInt32} :
    gate (loadIdt mem idt stubs isr128) idt vector =
      if vector = 0x80 then ⟨isr128.toNat, 0x08, 0xEE⟩
      else if vector < 48 then ⟨(stubs vector).toNat, 0x08, 0x8E⟩
      else gate mem idt vector := by
  rw [loadIdt]
  by_cases hv : vector = 0x80
  · subst hv
    rw [gate_setIdtGate, if_pos rfl]
    rfl
  · rw [gate_setIdtGate_of_ne hv, gate_loadStubs, if_neg hv]

/-- An entry of zeros is no gate. -/
theorem gate_zero (hzero : ∀ x, idt ≤ x → x < idt + 2048 → mem x = 0) (hv : vector < 256) :
    gate mem idt vector = ⟨0, 0, 0⟩ := by
  have hload : ∀ n a, idt ≤ a → a + n ≤ idt + 2048 → load mem a n = 0 := by
    intro n
    induction n with
    | zero => exact fun _ _ _ => rfl
    | succ n ih =>
        intro a ha hn
        rw [load, hzero a ha (by omega), ih (a + 1) (by omega) (by omega)]
        rfl
  simp (disch := omega) only [gate, hload]

/-- **The ways into the kernel.**  With the table of `load_idt` in a memory of zeros: an exception,
an interrupt of a device, or an `int n` of the kernel for one of the 48 stubs enters that stub;
`int 0x80` enters `isr128` from any ring; and every other vector, and every other `int n` of a user
program, enters the stub of the general protection fault. -/
theorem entered_loadIdt {stubs : Nat → UInt32} {isr128 : UInt32} {cpl : Nat} {software : Bool}
    (hzero : ∀ x, idt ≤ x → x < idt + 2048 → mem x = 0) (hv : vector < 256) (hcpl : cpl ≤ 3) :
    entered (loadIdt mem idt stubs isr128) idt cpl software vector =
      if vector = 0x80 then some (isr128.toNat, 0x08)
      else if vector < 48 ∧ (software = false ∨ cpl = 0) then some ((stubs vector).toNat, 0x08)
      else some ((stubs 13).toNat, 0x08) := by
  have hfault : gate (loadIdt mem idt stubs isr128) idt 13 = ⟨(stubs 13).toNat, 0x08, 0x8E⟩ :=
    gate_loadIdt.trans rfl
  have hgate : gate (loadIdt mem idt stubs isr128) idt vector = _ := gate_loadIdt
  unfold entered
  by_cases h80 : vector = 0x80
  · rw [if_pos h80] at hgate ⊢
    rw [hgate, deliver_user _ hcpl]
  · rw [if_neg h80] at hgate ⊢
    by_cases h48 : vector < 48
    · rw [if_pos h48] at hgate
      rw [hgate, deliver_kernel]
      by_cases hlevel : software = true ∧ 0 < cpl
      · have hnot : ¬ (vector < 48 ∧ (software = false ∨ cpl = 0)) := by
          rintro ⟨-, hsoft | hzero⟩
          · simp [hsoft] at hlevel
          · omega
        rw [if_pos hlevel, if_neg hnot]
        simp only [hfault, deliver_kernel, Bool.false_eq_true, false_and, if_false]
      · have hyes : software = false ∨ cpl = 0 := by
          cases software with
          | false => exact .inl rfl
          | true => exact .inr (by simpa using hlevel)
        rw [if_neg hlevel, if_pos ⟨h48, hyes⟩]
    · rw [if_neg h48, gate_zero hzero hv] at hgate
      rw [hgate, deliver_zero, if_neg fun h => h48 h.1]
      simp only [hfault, deliver_kernel, Bool.false_eq_true, false_and, if_false]

/-- A page fault that a user program tries to raise itself. -/
theorem entered_loadIdt_forged :
    entered (loadIdt (fun _ => 0) 0x12000 (fun i => UInt32.ofNat (0x10000 + 16 * i)) 0x10800) 0x12000
      3 true 14 = some (0x100D0, 0x08) :=
  (entered_loadIdt (fun _ _ _ => rfl) (by norm_num) (by norm_num)).trans (by decide)

end Idt

/-! ## The global descriptor table -/

/-- `gdt_set_gate`, with the table at `gdtr`. -/
def gdtSetGate (mem : Bytes) (gdtr num : Nat) (base limit : UInt32) (access gran : UInt8) :
    Bytes :=
  let gdtEntry := gdtr + 8 * num
  let mem := store mem gdtEntry (limit &&& 0xFF).toNat 1
  let mem := store mem (gdtEntry + 1) ((limit >>> 8) &&& 0xFF).toNat 1
  let mem := store mem (gdtEntry + 2) (base &&& 0xFF).toNat 1
  let mem := store mem (gdtEntry + 3) ((base >>> 8) &&& 0xFF).toNat 1
  let mem := store mem (gdtEntry + 4) ((base >>> 16) &&& 0xFF).toNat 1
  let mem := store mem (gdtEntry + 5) access.toNat 1
  let mem := store mem (gdtEntry + 6)
    ((gran.toUInt32 &&& 0x0F) <<< 4 ||| (limit >>> 16) &&& 0x0F).toNat 1
  store mem (gdtEntry + 7) ((base >>> 24) &&& 0xFF).toNat 1

/-- A segment descriptor as the processor reads it. -/
structure Segment where
  base : Nat
  limit : Nat
  access : Nat
  flags : Nat
  deriving DecidableEq, Repr

def segment (mem : Bytes) (gdtr index : Nat) : Segment :=
  let entry := gdtr + 8 * index
  { base := load mem (entry + 2) 1 + 0x100 * load mem (entry + 3) 1 +
      0x10000 * load mem (entry + 4) 1 + 0x1000000 * load mem (entry + 7) 1
    limit := load mem entry 1 + 0x100 * load mem (entry + 1) 1 +
      0x10000 * (load mem (entry + 6) 1 % 16)
    access := load mem (entry + 5) 1
    flags := load mem (entry + 6) 1 / 16 }

def Segment.dpl (s : Segment) : Nat := s.access / 32 % 4

section Gdt

variable {mem : Bytes} {gdtr num index : Nat} {base limit : UInt32} {access gran : UInt8}

/-- One byte of a number. -/
theorem byte_shift (v : UInt32) {k : UInt32} (hk : k.toNat < 32) :
    ((v >>> k) &&& 0xFF).toNat = v.toNat / 2 ^ k.toNat % 2 ^ 8 := by
  rw [UInt32.toNat_and, UInt32.toNat_shiftRight, Nat.mod_eq_of_lt hk, Nat.shiftRight_eq_div_pow]
  exact Nat.and_two_pow_sub_one_eq_mod _ 8

theorem byte_low (v : UInt32) : (v &&& 0xFF).toNat = v.toNat % 2 ^ 8 := by
  rw [UInt32.toNat_and]
  exact Nat.and_two_pow_sub_one_eq_mod _ 8

theorem nibble_low (v : UInt32) : (v &&& 0x0F).toNat = v.toNat % 2 ^ 4 := by
  rw [UInt32.toNat_and]
  exact Nat.and_two_pow_sub_one_eq_mod _ 4

/-- Two groups of four bits in one byte. -/
theorem nibbles_or (g l : UInt32) :
    ((g &&& 0x0F) <<< 4 ||| (l >>> 16) &&& 0x0F).toNat =
      16 * (g.toNat % 16) + l.toNat / 2 ^ 16 % 16 := by
  have hg := nibble_low g
  have hl := nibble_low (l >>> 16)
  have hshift : (l >>> 16).toNat = l.toNat / 2 ^ 16 := by
    rw [UInt32.toNat_shiftRight]
    exact Nat.shiftRight_eq_div_pow _ 16
  have hleft : ((g &&& 0x0F) <<< 4).toNat = (g.toNat % 2 ^ 4) <<< 4 := by
    rw [UInt32.toNat_shiftLeft, hg]
    refine Nat.mod_eq_of_lt ?_
    rw [Nat.shiftLeft_eq]
    have hmod : g.toNat % 2 ^ 4 < 2 ^ 4 := Nat.mod_lt _ (by norm_num)
    simp
    omega
  have hlt : l.toNat / 2 ^ 16 % 2 ^ 4 < 2 ^ 4 := Nat.mod_lt _ (by norm_num)
  rw [UInt32.toNat_or, hleft, hl, hshift, ← Nat.shiftLeft_add_eq_or_of_lt hlt, Nat.shiftLeft_eq]
  omega

/-- The processor reads the descriptor that was set, with the low 20 bits of the limit and the low
four bits of the flags. -/
theorem segment_gdtSetGate : segment (gdtSetGate mem gdtr num base limit access gran) gdtr num =
    ⟨base.toNat, limit.toNat % 2 ^ 20, access.toNat, gran.toNat % 16⟩ := by
  have hbase := base.toNat_lt
  have haccess : access.toNat < 256 ^ 1 := access.toNat_lt
  have hgran : gran.toUInt32.toNat = gran.toNat := rfl
  have hlow (v : UInt32) : (v &&& 0xFF).toNat = v.toNat % 2 ^ 8 := byte_low v
  have h8 (v : UInt32) : ((v >>> 8) &&& 0xFF).toNat = v.toNat / 2 ^ 8 % 2 ^ 8 :=
    byte_shift v (by decide)
  have h16 : ((base >>> 16) &&& 0xFF).toNat = base.toNat / 2 ^ 16 % 2 ^ 8 :=
    byte_shift base (by decide)
  have h24 : ((base >>> 24) &&& 0xFF).toNat = base.toNat / 2 ^ 24 % 2 ^ 8 :=
    byte_shift base (by decide)
  simp (disch := omega) only [segment, gdtSetGate, load_store, load_store_of_apart]
  rw [hlow limit, hlow base, h8 limit, h8 base, h16, h24, nibbles_or, hgran,
    Nat.mod_eq_of_lt haccess, Segment.mk.injEq]
  refine ⟨?_, ?_, rfl, ?_⟩ <;> omega

/-- The other descriptors stay. -/
theorem segment_gdtSetGate_of_ne (h : index ≠ num) :
    segment (gdtSetGate mem gdtr num base limit access gran) gdtr index =
      segment mem gdtr index := by
  simp (disch := omega) only [segment, gdtSetGate, load_store_of_apart]

end Gdt

/-! ## The task state segment -/

/-- The table at `gdt_start` of `entry.asm`. -/
def gdtStart : List UInt8 :=
  [0x00, 0x00, 0x00, 0x00, 0x00, 0x00, 0x00, 0x00,    -- gdt_null
   0xFF, 0xFF, 0x00, 0x00, 0x00, 0x9A, 0xCF, 0x00,    -- gdt_kernel_code
   0xFF, 0xFF, 0x00, 0x00, 0x00, 0x92, 0xCF, 0x00,    -- gdt_kernel_data
   0xFF, 0xFF, 0x00, 0x00, 0x00, 0xFA, 0xCF, 0x00,    -- gdt_user_code
   0xFF, 0xFF, 0x00, 0x00, 0x00, 0xF2, 0xCF, 0x00,    -- gdt_user_data
   0x67, 0x00, 0x00, 0x00, 0x00, 0x89, 0x00, 0x00]    -- gdt_tss

/-- `sizeof(tss_entry_t)` -/
def tssSize : Nat := 104

/-- `memset`, with zero. -/
def zeroed (mem : Bytes) (a n : Nat) : Bytes := fun x => if a ≤ x ∧ x < a + n then 0 else mem x

/-- `init_tss`, with `g_tss` at `tss` and without the `ltr` of `flush_tss`. -/
def initTss (mem : Bytes) (gdtr tss : Nat) : Bytes :=
  let mem := zeroed mem tss tssSize
  let mem := store mem (tss + 8) 0x10 4
  let mem := store mem (tss + 4) 0x90000 4
  let mem := store mem (tss + 102) tssSize 2
  gdtSetGate mem gdtr 5 (UInt32.ofNat tss) 0x67 0x89 0

/-- The stack segment and the stack pointer that the processor takes on its way into ring 0, from
the segment that the task register names with 0x28. -/
def ringZeroStack (mem : Bytes) (gdtr : Nat) : Nat × Nat :=
  let tss := (segment mem gdtr 5).base
  (load mem (tss + 8) 4 % 0x10000, load mem (tss + 4) 4)

section Tss

variable {mem : Bytes} {gdtr tss index : Nat}

theorem load_zeroed_of_apart {a n b m : Nat} (h : b + m ≤ a ∨ a + n ≤ b) :
    load (zeroed mem a n) b m = load mem b m :=
  load_congr fun _ _ => if_neg (by omega)

/-- A descriptor is read from its eight bytes. -/
theorem segment_congr {mem' : Bytes}
    (h : ∀ a n, gdtr + 8 * index ≤ a → a + n ≤ gdtr + 8 * index + 8 → load mem' a n = load mem a n) :
    segment mem' gdtr index = segment mem gdtr index := by
  simp (disch := omega) only [segment, h]

/-- The table of `entry.asm` is at `gdtr`. -/
def GdtLoaded (mem : Bytes) (gdtr : Nat) : Prop :=
  ∀ i < 48, mem (gdtr + i) = gdtStart.getD i 0

theorem load_gdtStart (h : GdtLoaded mem gdtr) {i : Nat} (hi : i < 48) :
    load mem (gdtr + i) 1 = (gdtStart.getD i 0).toNat := by
  rw [load, load, h i hi]
  rfl

/-- The segments of `entry.asm`. -/
theorem segment_gdtStart (h : GdtLoaded mem gdtr) (hindex : index < 6) :
    segment mem gdtr index = segment (fun i => gdtStart.getD i 0) 0 index := by
  have hload : ∀ k < 8, load mem (gdtr + 8 * index + k) 1 =
      load (fun i => gdtStart.getD i 0) (8 * index + k) 1 := by
    intro k hk
    rw [Nat.add_assoc, load_gdtStart h (by omega)]
    rfl
  have h0 := hload 0 (by norm_num)
  rw [Nat.add_zero, Nat.add_zero] at h0
  simp only [segment, Nat.zero_add, h0, hload 1 (by norm_num), hload 2 (by norm_num),
    hload 3 (by norm_num), hload 4 (by norm_num), hload 5 (by norm_num), hload 6 (by norm_num),
    hload 7 (by norm_num)]

/-- The levels that the stubs rely on are those of the table. -/
theorem dpl_gdtStart (selector : BitVec 16) (h : (selector >>> 3).toNat < 6) :
    (segment (fun i => gdtStart.getD i 0) 0 (selector >>> 3).toNat).dpl = dpl selector := by
  have hdpl : dpl selector =
      if (selector >>> 3).toNat = 3 ∨ (selector >>> 3).toNat = 4 then 3 else 0 := by
    have hiff (k : BitVec 16) : selector >>> 3 = k ↔ (selector >>> 3).toNat = k.toNat :=
      BitVec.toNat_inj.symm
    simp only [dpl, hiff]
    rfl
  rw [hdpl]
  generalize (selector >>> 3).toNat = i at h ⊢
  have hall : ∀ i < 6, (segment (fun i => gdtStart.getD i 0) 0 i).dpl =
      if i = 3 ∨ i = 4 then 3 else 0 := by decide
  exact hall i h

/-- The descriptor that `init_tss` sets. -/
theorem segment_initTss_tss (htss : tss < 2 ^ 32) :
    segment (initTss mem gdtr tss) gdtr 5 = ⟨tss, 0x67, 0x89, 0⟩ := by
  have hbase : (UInt32.ofNat tss).toNat = tss := UInt32.toNat_ofNat_of_lt' htss
  rw [initTss, segment_gdtSetGate, hbase]
  rfl

/-- The others. -/
theorem segment_initTss (hindex : index < 5) (hapart : tss + 104 ≤ gdtr ∨ gdtr + 48 ≤ tss) :
    segment (initTss mem gdtr tss) gdtr index = segment mem gdtr index := by
  rw [initTss, segment_gdtSetGate_of_ne (by omega)]
  refine segment_congr fun a n ha hn => ?_
  have hsize : tssSize = 104 := rfl
  rw [load_store_of_apart (by omega), load_store_of_apart (by omega),
    load_store_of_apart (by omega), load_zeroed_of_apart (by omega)]

theorem ringZeroStack_initTss (htss : tss < 2 ^ 32)
    (hapart : tss + 104 ≤ gdtr ∨ gdtr + 48 ≤ tss) :
    ringZeroStack (initTss mem gdtr tss) gdtr = (0x10, 0x90000) := by
  have hgate : ∀ (m : Bytes) (b n : Nat), tss ≤ b → b + n ≤ tss + 104 →
      load (gdtSetGate m gdtr 5 (UInt32.ofNat tss) 0x67 0x89 0) b n = load m b n := by
    intro m b n hb hn
    simp (disch := omega) only [gdtSetGate, load_store_of_apart]
  have hss : load (initTss mem gdtr tss) (tss + 8) 4 = 0x10 := by
    rw [initTss, hgate _ _ _ (by omega) (by omega), load_store_of_apart (by omega),
      load_store_of_apart (by omega), load_store]
    norm_num
  have hesp : load (initTss mem gdtr tss) (tss + 4) 4 = 0x90000 := by
    rw [initTss, hgate _ _ _ (by omega) (by omega), load_store_of_apart (by omega), load_store]
    norm_num
  rw [ringZeroStack, segment_initTss_tss htss]
  simp only [hss, hesp]

/-- **The tables behind `init_tss`.**  The processor finds the kernel stack through the descriptor
that is patched into the table of `entry.asm`; the code and data segments are still flat; and each
selector has the level that the way back to ring 3 goes by. -/
theorem initTss_tables (hgdt : GdtLoaded mem gdtr) (htss : tss < 2 ^ 32)
    (hapart : tss + 104 ≤ gdtr ∨ gdtr + 48 ≤ tss) :
    ringZeroStack (initTss mem gdtr tss) gdtr = (0x10, 0x90000) ∧
      segment (initTss mem gdtr tss) gdtr 5 = ⟨tss, 0x67, 0x89, 0⟩ ∧
      (∀ index, 0 < index → index < 5 → (segment (initTss mem gdtr tss) gdtr index).base = 0 ∧
        (segment (initTss mem gdtr tss) gdtr index).limit = 0xFFFFF ∧
        (segment (initTss mem gdtr tss) gdtr index).flags = 0xC) ∧
      ∀ selector : BitVec 16, (selector >>> 3).toNat < 6 →
        (segment (initTss mem gdtr tss) gdtr (selector >>> 3).toNat).dpl = dpl selector := by
  have hflat : ∀ index < 5, 0 < index →
      (segment (fun i => gdtStart.getD i 0) 0 index).base = 0 ∧
      (segment (fun i => gdtStart.getD i 0) 0 index).limit = 0xFFFFF ∧
      (segment (fun i => gdtStart.getD i 0) 0 index).flags = 0xC := by decide
  refine ⟨ringZeroStack_initTss htss hapart, segment_initTss_tss htss, fun index h0 h5 => ?_,
    fun selector h6 => ?_⟩
  · rw [segment_initTss h5 hapart, segment_gdtStart hgdt (by omega)]
    exact hflat index h5 h0
  · by_cases h5 : (selector >>> 3).toNat < 5
    · rw [segment_initTss h5 hapart, segment_gdtStart hgdt h6]
      exact dpl_gdtStart selector h6
    · have hfive : (selector >>> 3).toNat = 5 := by omega
      rw [← dpl_gdtStart selector h6, hfive, segment_initTss_tss htss]
      rfl

/-- The table at 0x11000 and `g_tss` at 0x20000. -/
theorem initTss_tables_small :
    ringZeroStack (initTss (fun x => gdtStart.getD (x - 0x11000) 0) 0x11000 0x20000) 0x11000 =
      (0x10, 0x90000) := by
  have hgdt : GdtLoaded (fun x => gdtStart.getD (x - 0x11000) 0) 0x11000 := fun i _ => by
    simp only [Nat.add_sub_cancel_left]
  exact (initTss_tables hgdt (by norm_num) (by norm_num)).1

end Tss

end BenmoshOS.Cpu
