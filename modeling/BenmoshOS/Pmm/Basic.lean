import BenmoshOS.Lib.Exec

/-!
# The physical memory manager: `memory/pmm/pmm.c`

One bit per 4 KB frame of the 4 GB address space, set when the frame is in use,
with a summary bitmap of one bit per word that is set when the word is full.

* `pmmInit` — everything used, then the usable regions of the firmware map are
  freed and the low megabyte, the kernel image and the heap reserved again;
* `allocFrame` — the first frame with a clear bit, never frame 0;
* `freeBlock`, `reserveBlock` — ranges of frames, with their guards.

`kernel_end` is a symbol of the linker script and enters as a parameter.
-/

namespace BenmoshOS.Pmm

/-- What `pmm_init` reads of a `struct memorymap_entry` at 0x5000. -/
structure MemorymapEntry where
  base : UInt64
  length : UInt64
  type : UInt32
  deriving DecidableEq, Repr

/-- The variables of the frame allocator. -/
structure State where
  bitmap : Nat → BitVec 32
  summaryBitmap : Nat → BitVec 32
  freeFrameCount : Nat

/-- `total_frames`. -/
def totalFrames : Nat := 1048576

/-- `1U << bit`. -/
def mask (bit : Nat) : BitVec 32 := 1#32 <<< bit

/-- `pmm_is_frame_free`. -/
def isFrameFree (s : State) (frame : Nat) : Bool :=
  if totalFrames ≤ frame then false
  else s.bitmap (frame / 32) &&& mask (frame % 32) == 0#32

/-- `pmm_mark_used`. -/
def markUsed (s : State) (frame : Nat) : State :=
  if totalFrames ≤ frame then s
  else
    let word := frame / 32
    let full := s.bitmap word ||| mask (frame % 32)
    { s with
      bitmap := Function.update s.bitmap word full
      summaryBitmap :=
        if full = 0xFFFFFFFF#32 then
          Function.update s.summaryBitmap (word / 32)
            (s.summaryBitmap (word / 32) ||| mask (word % 32))
        else s.summaryBitmap }

/-- `pmm_mark_free`. -/
def markFree (s : State) (frame : Nat) : State :=
  if totalFrames ≤ frame then s
  else
    let word := frame / 32
    { s with
      bitmap := Function.update s.bitmap word (s.bitmap word &&& ~~~ mask (frame % 32))
      summaryBitmap := Function.update s.summaryBitmap (word / 32)
        (s.summaryBitmap (word / 32) &&& ~~~ mask (word % 32)) }

/-- `free_frame_count++`. -/
def State.countUp (s : State) : State :=
  { s with freeFrameCount := wrap32 (s.freeFrameCount + 1) }

/-- `free_frame_count--`. -/
def State.countDown (s : State) : State :=
  { s with freeFrameCount := wrap32 (s.freeFrameCount + 2 ^ 32 - 1) }

/-! ## Ranges of frames -/

/-- One round of the loop of `pmm_reserve_block`. -/
def reserveStep (startingFrame : Nat) (s : State) (i : Nat) : State :=
  let currentFrame := wrap32 (startingFrame + i)
  if isFrameFree s currentFrame then (markUsed s currentFrame).countDown else s

/-- `pmm_reserve_block`. -/
def reserveBlock (s : State) (physicalAddress size : Nat) : State :=
  (List.range (wrap32 (size + 4095) / 4096)).foldl (reserveStep (physicalAddress / 4096)) s

/-- The message of the guard of `pmm_free_block`. -/
def alreadyFree (physicalAddress : Nat) : Panic :=
  ⟨"[PMM] Warning: Attempted to free an already free frame at %x", [physicalAddress]⟩

/-- One round of the loop of `pmm_free_block`. -/
def freeStep (startingFrame : Nat) (s : State) (i : Nat) : State :=
  let currentFrame := wrap32 (startingFrame + i)
  if isFrameFree s currentFrame then s else (markFree s currentFrame).countUp

/-- `pmm_free_block`. -/
def freeBlock (s : State) (physicalAddress numFrames : Nat) : Exec State :=
  let startingFrame := physicalAddress / 4096
  if isFrameFree s startingFrame then .panic (alreadyFree physicalAddress)
  else .ret ((List.range numFrames).foldl (freeStep startingFrame) s)

/-! ## Allocation -/

/-- The inner loop of `pmm_alloc_frame`, over the bits of word `w`. -/
def allocInWord (s : State) (w : Nat) : List Nat → Option (State × Nat)
  | [] => none
  | b :: bits =>
      if s.bitmap w &&& mask b = 0#32 then
        let frame := w * 32 + b
        if frame = 0 then allocInWord s w bits
        else some ((markUsed s frame).countDown, frame * 4096)
      else allocInWord s w bits

/-- The outer loop of `pmm_alloc_frame`, over the words of the bitmap. -/
def allocInWords (s : State) : List Nat → State × Nat
  | [] => (s, 0)
  | w :: words =>
      if s.bitmap w ≠ 0xFFFFFFFF#32 then
        match allocInWord s w (List.range 32) with
        | some r => r
        | none => allocInWords s words
      else allocInWords s words

/-- `pmm_alloc_frame`: the state afterwards and the address of the frame, 0 when
there is none. -/
def allocFrame (s : State) : State × Nat := allocInWords s (List.range 32768)

/-! ## Initialisation -/

/-- One round of the loop that frees a usable region. -/
def releaseStep (startingFrameIndex : Nat) (s : State) (i : Nat) : State :=
  let frame := wrap32 (startingFrameIndex + i)
  if frame < totalFrames then (markFree s frame).countUp else s

/-- The frames of one usable region, with base and length cut to 32 bits. -/
def releaseRegion (s : State) (entry : MemorymapEntry) : State :=
  let length32 := wrap32 entry.length.toNat
  let base32 := wrap32 entry.base.toNat
  (List.range (length32 / 4096)).foldl (releaseStep (base32 / 4096)) s

/-- The scan of the firmware map up to the first entry of length 0. -/
def scanMap : List MemorymapEntry → State → State
  | [], s => s
  | entry :: rest, s =>
      if entry.length = 0 then s
      else scanMap rest (if entry.type = 1 then releaseRegion s entry else s)

/-- All frames in use: the state after the two fill loops of `pmm_init`. -/
def allUsed : State :=
  { bitmap := fun _ => 0xFFFFFFFF#32, summaryBitmap := fun _ => 0xFFFFFFFF#32,
    freeFrameCount := 0 }

/-- `pmm_init`, for the firmware map at 0x5000 and the linker's `kernel_end`. -/
def pmmInit (map : List MemorymapEntry) (kernelEnd : Nat) : State :=
  let s₁ := scanMap map allUsed
  let s₂ := reserveBlock s₁ 0 0x100000
  let s₃ := if 0x100000 < kernelEnd then reserveBlock s₂ 0x100000 (kernelEnd - 0x100000) else s₂
  reserveBlock s₃ 0x400000 0x400000

/-- `pmm_get_stats`: total, free and used frames. -/
def getStats (s : State) : Nat × Nat × Nat :=
  (totalFrames, s.freeFrameCount, wrap32 (totalFrames + 2 ^ 32 - s.freeFrameCount))

end BenmoshOS.Pmm
