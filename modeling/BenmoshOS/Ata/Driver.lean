import BenmoshOS.Lib.Ports
import BenmoshOS.Fat16.Disk

/-!
# The ATA driver: `drivers/ata/ata.c`

`ata_read_sector` and `ata_write_sector` drive the disk by programmed I/O: they wait until the
drive is ready, write the task file (ports `0x1F2` to `0x1F6`) and a command (`0x1F7`), wait until
the drive asks for data, and move 256 words through port `0x1F0`.  Each wait reads the status at
most a million times.

The functions return 0 or print an error and return 1; the model returns `.ok` with the buffer, or
the text that is printed.

`driver_protocol` is about every device behind the ports: whatever it answers, the accesses of a
call are a beginning of one fixed conversation, and the result tells how far it went.
-/

namespace BenmoshOS

namespace Ata

open Fat16 (Sector u16 setU16)

/-- The rounds of a wait. -/
def timeout : Nat := 1000000

/-- What `ata_wait_ready` makes of a status: the error bit is looked at first, then BSY and RDY. -/
def readyVerdict (status : UInt8) : Option Bool :=
  if status &&& 0x01 ≠ 0 then some false
  else if status &&& 0x80 = 0 ∧ status &&& 0x40 ≠ 0 then some true
  else none

/-- What `ata_wait_drq` makes of a status: the error bit, then BSY and DRQ. -/
def drqVerdict (status : UInt8) : Option Bool :=
  if status &&& 0x01 ≠ 0 then some false
  else if status &&& 0x80 = 0 ∧ status &&& 0x08 ≠ 0 then some true
  else none

/-- Wait for drive readiness and check for errors. -/
def ataWaitReady : Ports Bool := Ports.poll 0x1F7 readyVerdict timeout

/-- Wait for Data Request (DRQ). -/
def ataWaitDrq : Ports Bool := Ports.poll 0x1F7 drqVerdict timeout

/-- Select drive and LBA, and send the command. -/
def select (lba : UInt32) (command : UInt8) : Ports Unit := do
  Ports.outb 0x1F6 ((0xE0 : UInt32) ||| ((lba >>> 24) &&& 0x0F)).toUInt8
  Ports.outb 0x1F2 1
  Ports.outb 0x1F3 (lba &&& 0xFF).toUInt8
  Ports.outb 0x1F4 ((lba >>> 8) &&& 0xFF).toUInt8
  Ports.outb 0x1F5 ((lba >>> 16) &&& 0xFF).toUInt8
  Ports.outb 0x1F7 command

/-- `target[i] = inportw(0x1F0)` -/
def readRound (i : Nat) (target : Sector) : Ports Sector := do
  let word ← Ports.inw 0x1F0
  return setU16 target (2 * i) word.toNat

/-- `outportw(0x1F0, source[i])` -/
def writeRound (source : Sector) (i : Nat) (_ : Unit) : Ports Unit :=
  Ports.outw 0x1F0 (UInt16.ofNat (u16 source (2 * i)))

/-- The text both functions print when the first wait fails. -/
def notReady : String := "Error: ATA drive is not responding, busy, or error state.\n"

def ataReadSector (lba : UInt32) (buffer : Sector) : Ports (Except String Sector) := do
  if ← ataWaitReady then
    select lba 0x20
    if ← ataWaitDrq then
      let target ← Ports.forUpTo readRound 256 buffer
      return .ok target
    else return .error "Error: ATA read DRQ timeout or error.\n"
  else return .error notReady

def ataWriteSector (lba : UInt32) (buffer : Sector) : Ports (Except String Unit) := do
  if ← ataWaitReady then
    select lba 0x30
    if ← ataWaitDrq then
      Ports.forUpTo (writeRound buffer) 256 ()
      if ← ataWaitReady then
        -- flush the cache to metal
        Ports.outb 0x1F7 0xE7
        if ← ataWaitReady then return .ok ()
        else return .error "Error: ATA cache flush failed.\n"
      else return .error "Error: ATA write completion timeout or error.\n"
    else return .error "Error: ATA write DRQ timeout or error.\n"
  else return .error notReady

/-! ## The conversation -/

/-- The writes that select a sector and send a command. -/
def selection (lba : UInt32) (command : UInt8) : List Access :=
  [.outb 0x1F6 ((0xE0 : UInt32) ||| ((lba >>> 24) &&& 0x0F)).toUInt8, .outb 0x1F2 1,
    .outb 0x1F3 (lba &&& 0xFF).toUInt8, .outb 0x1F4 ((lba >>> 8) &&& 0xFF).toUInt8,
    .outb 0x1F5 ((lba >>> 16) &&& 0xFF).toUInt8, .outb 0x1F7 command]

/-- The reads that fetch a sector. -/
def dataIn : List Access := List.replicate 256 (.inw 0x1F0)

/-- The writes that hand over a sector. -/
def dataOut (source : Sector) : List Access :=
  (List.range 256).map fun i => .outw 0x1F0 (UInt16.ofNat (u16 source (2 * i)))

/-- What a read does between its waits. -/
def readSteps (lba : UInt32) : List (List Access) := [selection lba 0x20, dataIn]

/-- What a write does between its waits. -/
def writeSteps (lba : UInt32) (buffer : Sector) : List (List Access) :=
  [selection lba 0x30, dataOut buffer, [.outb 0x1F7 0xE7]]

/-- Waits of the lengths `waits`, with the steps between them. -/
def conversation : List Nat → List (List Access) → List Access
  | [], _ => []
  | k :: _, [] => List.replicate k (.inb 0x1F7)
  | k :: waits, step :: steps =>
      List.replicate k (.inb 0x1F7) ++ (step ++ conversation waits steps)

/-- How far a read comes: the waits it makes, the steps it makes, and what it returns. -/
inductive ReadEnds (target : Sector) : Nat → Nat → Except String Sector → Prop where
  | notReady : ReadEnds target 1 0 (.error notReady)
  | noData : ReadEnds target 2 1 (.error "Error: ATA read DRQ timeout or error.\n")
  | done : ReadEnds target 2 2 (.ok target)

/-- How far a write comes. -/
inductive WriteEnds : Nat → Nat → Except String Unit → Prop where
  | notReady : WriteEnds 1 0 (.error notReady)
  | noData : WriteEnds 2 1 (.error "Error: ATA write DRQ timeout or error.\n")
  | notWritten : WriteEnds 3 2 (.error "Error: ATA write completion timeout or error.\n")
  | notFlushed : WriteEnds 4 3 (.error "Error: ATA cache flush failed.\n")
  | done : WriteEnds 4 3 (.ok ())

section Protocol

variable {σ : Type} {dev : Device σ} {s : σ} {lba : UInt32} {buffer : Sector}

theorem trace_ataWaitReady (dev : Device σ) (s : σ) :
    ∃ k ≤ timeout, ataWaitReady.trace dev s = List.replicate k (.inb 0x1F7) :=
  Ports.trace_poll dev _ _ _ s

theorem trace_ataWaitDrq (dev : Device σ) (s : σ) :
    ∃ k ≤ timeout, ataWaitDrq.trace dev s = List.replicate k (.inb 0x1F7) :=
  Ports.trace_poll dev _ _ _ s

theorem trace_select (command : UInt8) : (select lba command).trace dev s = selection lba command :=
  rfl

theorem trace_readWords (buffer : Sector) (s : σ) :
    (Ports.forUpTo readRound 256 buffer).trace dev s = dataIn := by
  have hround : ∀ i < 256, ∀ b s, (readRound i b).trace dev s = [.inw 0x1F0] := by
    intro i _ b s
    simp [readRound]
  rw [Ports.trace_forUpTo (fun _ => [.inw 0x1F0]) hround, ← List.map_eq_flatMap,
    List.map_const', List.length_range, dataIn]

theorem trace_writeWords (buffer : Sector) (s : σ) :
    (Ports.forUpTo (writeRound buffer) 256 ()).trace dev s = dataOut buffer := by
  rw [Ports.trace_forUpTo (fun i => [.outw 0x1F0 (UInt16.ofNat (u16 buffer (2 * i)))])
    fun _ _ _ _ => rfl, ← List.map_eq_flatMap, dataOut]

/-- A read makes the waits and the steps of a beginning of its conversation. -/
theorem read_conversation (dev : Device σ) (s : σ) (lba : UInt32) (buffer : Sector) :
    ∃ target waits steps, ReadEnds target waits.length steps
        ((ataReadSector lba buffer).run dev s).1 ∧ (∀ k ∈ waits, k ≤ timeout) ∧
      (ataReadSector lba buffer).trace dev s = conversation waits ((readSteps lba).take steps) := by
  obtain ⟨k, hk, htrace⟩ := trace_ataWaitReady dev s
  rw [ataReadSector, Ports.run_bind, Ports.trace_bind, htrace]
  cases (ataWaitReady.run dev s).1 with
  | false => exact ⟨buffer, [k], 0, .notReady, by simpa using hk, by simp [conversation]⟩
  | true =>
      simp only [if_true, Ports.run_bind, Ports.trace_bind, trace_select]
      generalize ((select lba 32).run dev (ataWaitReady.run dev s).2).2 = s₁
      obtain ⟨k₁, hk₁, htrace₁⟩ := trace_ataWaitDrq dev s₁
      rw [htrace₁]
      cases (ataWaitDrq.run dev s₁).1 with
      | false => exact ⟨buffer, [k, k₁], 1, .noData, by simp [hk, hk₁],
          by simp [conversation, readSteps]⟩
      | true =>
          simp only [if_true, Ports.run_bind, Ports.trace_bind, Ports.run_pure, Ports.trace_pure,
            trace_readWords]
          exact ⟨_, [k, k₁], 2, .done, by simp [hk, hk₁], by simp [conversation, readSteps]⟩

/-- A write makes the waits and the steps of a beginning of its conversation. -/
theorem write_conversation (dev : Device σ) (s : σ) (lba : UInt32) (buffer : Sector) :
    ∃ waits steps, WriteEnds waits.length steps ((ataWriteSector lba buffer).run dev s).1 ∧
      (∀ k ∈ waits, k ≤ timeout) ∧
      (ataWriteSector lba buffer).trace dev s =
        conversation waits ((writeSteps lba buffer).take steps) := by
  obtain ⟨k, hk, htrace⟩ := trace_ataWaitReady dev s
  rw [ataWriteSector, Ports.run_bind, Ports.trace_bind, htrace]
  cases (ataWaitReady.run dev s).1 with
  | false => exact ⟨[k], 0, .notReady, by simpa using hk, by simp [conversation]⟩
  | true =>
      simp only [if_true, Ports.run_bind, Ports.trace_bind, trace_select]
      generalize ((select lba 48).run dev (ataWaitReady.run dev s).2).2 = s₁
      obtain ⟨k₁, hk₁, htrace₁⟩ := trace_ataWaitDrq dev s₁
      rw [htrace₁]
      cases (ataWaitDrq.run dev s₁).1 with
      | false => exact ⟨[k, k₁], 1, .noData, by simp [hk, hk₁], by simp [conversation, writeSteps]⟩
      | true =>
          simp only [if_true, Ports.run_bind, Ports.trace_bind, trace_writeWords]
          generalize ((Ports.forUpTo (writeRound buffer) 256 ()).run dev _).2 = s₂
          obtain ⟨k₂, hk₂, htrace₂⟩ := trace_ataWaitReady dev s₂
          rw [htrace₂]
          cases (ataWaitReady.run dev s₂).1 with
          | false => exact ⟨[k, k₁, k₂], 2, .notWritten, by simp [hk, hk₁, hk₂],
              by simp [conversation, writeSteps]⟩
          | true =>
              simp only [if_true, Ports.run_bind, Ports.trace_bind, Ports.run_outb,
                Ports.trace_outb]
              generalize dev.outb 0x1F7 0xE7 (ataWaitReady.run dev s₂).2 = s₃
              obtain ⟨k₃, hk₃, htrace₃⟩ := trace_ataWaitReady dev s₃
              rw [htrace₃]
              cases (ataWaitReady.run dev s₃).1 with
              | false => exact ⟨[k, k₁, k₂, k₃], 3, .notFlushed, by simp [hk, hk₁, hk₂, hk₃],
                  by simp [conversation, writeSteps]⟩
              | true => exact ⟨[k, k₁, k₂, k₃], 3, .done, by simp [hk, hk₁, hk₂, hk₃],
                  by simp [conversation, writeSteps]⟩

/-- **The driver's side of the protocol.**  On every device the accesses of a call are a beginning
of the conversation of a read or of a write: waits of at most a million status reads, and between
them the selection, the 256 words and the flush, in this order and complete.  What the call
returns tells where it ended; a write succeeds only after the whole conversation. -/
theorem driver_protocol (dev : Device σ) (s : σ) (lba : UInt32) (buffer : Sector) :
    (∃ target waits steps, ReadEnds target waits.length steps
        ((ataReadSector lba buffer).run dev s).1 ∧ (∀ k ∈ waits, k ≤ 1000000) ∧
      (ataReadSector lba buffer).trace dev s = conversation waits ((readSteps lba).take steps)) ∧
    ∃ waits steps, WriteEnds waits.length steps ((ataWriteSector lba buffer).run dev s).1 ∧
      (∀ k ∈ waits, k ≤ 1000000) ∧
      (ataWriteSector lba buffer).trace dev s =
        conversation waits ((writeSteps lba buffer).take steps) :=
  ⟨read_conversation dev s lba buffer, write_conversation dev s lba buffer⟩

end Protocol

end Ata

end BenmoshOS
