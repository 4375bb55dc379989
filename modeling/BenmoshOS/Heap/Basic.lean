import BenmoshOS.Lib.Exec

/-!
# The kernel heap: the allocator of `memory/heap/heap.c`

The heap is the four megabytes from `HEAP_START` to `HEAP_END`.  It is a chain of
blocks, each an 8-byte header followed by its payload.  A header is two words:
`size_and_free`, the payload size with the free flag packed into its lowest bit,
and `next`, the address of the following header (`NULL` for the last one).

Memory is a map from addresses to 32-bit words.  The allocator only ever touches
words at multiples of four, so a word-addressed memory loses nothing.  `NULL` is
the address 0.  The `irq_save` / `irq_restore` pairs around the two functions do
not touch memory and are left to the model of the interrupt flag.

* `kmalloc` — first fit, with a split when at least 24 bytes are left over;
* `kfree` — the three checks, the forward merge and the backward merge;
* `kmallocAligned`, `kfreeAligned` — over-allocation with a hidden pointer in
  front of the aligned address.
-/

namespace BenmoshOS.Heap

/-- Memory: the 32-bit word at each address. -/
abbrev Mem := Nat → Nat

/-- `HEAP_START`. -/
def heapStart : Nat := 0x400000

/-- `HEAP_SIZE`. -/
def heapSize : Nat := 0x400000

/-- `HEAP_END`. -/
def heapEnd : Nat := 0x800000

/-! ## The packed header word -/

/-- `size_and_free & ~1`. -/
def sizeOf (w : Nat) : Nat := w / 2 * 2

/-- `size_and_free & 1`, as a truth value. -/
def isFree (w : Nat) : Bool := w % 2 == 1

/-- `w | 1`. -/
def markFree (w : Nat) : Nat := w / 2 * 2 + 1

/-- `header->next`. -/
def next (m : Mem) (block : Nat) : Nat := m (block + 4)

/-- Store one word. -/
def store (m : Mem) (a v : Nat) : Mem := Function.update m a v

/-! ## Allocation -/

/-- `heap_init`: one free block over the whole heap. -/
def heapInit (m : Mem) : Mem :=
  store (store m heapStart (markFree (heapSize - 8))) (heapStart + 4) 0

/-- The rounding at the head of `kmalloc`, in 32-bit arithmetic: the last three
sizes wrap to 0. -/
def roundUp4 (requestedSize : Nat) : Nat :=
  if requestedSize % 4 ≠ 0 then wrap32 (requestedSize + (4 - requestedSize % 4))
  else requestedSize

/-- What `kmalloc` does to the free block it has chosen: mark it used and, when
at least 24 bytes are left over, split the rest off as a new free block. -/
def takeBlock (m : Mem) (current requestedSize : Nat) : Mem :=
  let currentSize := sizeOf (m current)
  let m₁ := store m current (sizeOf (m current))
  if 24 ≤ currentSize - requestedSize then
    let newBlock := wrap32 (current + requestedSize + 8)
    let m₂ := store m₁ newBlock (markFree (currentSize - requestedSize - 8))
    let m₃ := store m₂ (newBlock + 4) (next m₂ current)
    let m₄ := store m₃ current requestedSize
    store m₄ (current + 4) newBlock
  else m₁

/-- One round of the search of `kmalloc`, at the block `current`. -/
def kmallocBody (m : Mem) (requestedSize current : Nat) : Exec (Nat ⊕ (Mem × Nat)) :=
  if current = 0 then .ret (.inr (m, 0))
  else if isFree (m current) = true ∧ requestedSize ≤ sizeOf (m current) then
    .ret (.inr (takeBlock m current requestedSize, wrap32 (current + 8)))
  else .ret (.inl (next m current))

/-- `kmalloc`: the memory afterwards and the payload address, 0 for `NULL`. -/
def kmalloc (fuel : Nat) (m : Mem) (requestedSize : Nat) : Exec (Mem × Nat) :=
  Exec.loop (kmallocBody m (roundUp4 requestedSize)) fuel heapStart

/-! ## Release -/

/-- The forward merge of `kfree`. -/
def forwardMerge (m : Mem) (header : Nat) : Mem :=
  let nextBlock := next m header
  if nextBlock ≠ 0 ∧ isFree (m nextBlock) = true then
    let m₁ := store m header
      (markFree (wrap32 (sizeOf (m header) + sizeOf (m nextBlock) + 8)))
    store m₁ (header + 4) (next m₁ nextBlock)
  else m

/-- What the backward merge of `kfree` does once it has found the block in front
of `header`. -/
def mergeInto (m : Mem) (current header : Nat) : Mem :=
  if isFree (m current) = true then
    let m₁ := store m current
      (markFree (wrap32 (sizeOf (m current) + sizeOf (m header) + 8)))
    store m₁ (current + 4) (next m₁ header)
  else m

/-- One round of the search for the block in front of `header`. -/
def backwardBody (m : Mem) (header current : Nat) : Exec (Nat ⊕ Mem) :=
  if current ≠ 0 ∧ next m current ≠ 0 then
    if next m current = header then .ret (.inr (mergeInto m current header))
    else .ret (.inl (next m current))
  else .ret (.inr m)

/-- The message of the bounds check of `kfree`. -/
def outsideHeap (ptr : Nat) : Panic := ⟨"kfree: Pointer 0x%x is outside heap bounds!", [ptr]⟩

/-- The message of the double-free check of `kfree`. -/
def doubleFree (ptr : Nat) : Panic := ⟨"kfree: Double-free detected on pointer 0x%x!", [ptr]⟩

/-- The message of the integrity check of `kfree`. -/
def corruptedHeader (ptr : Nat) : Panic := ⟨"kfree: Corrupted heap header at 0x%x!", [ptr]⟩

/-- `kfree`. -/
def kfree (fuel : Nat) (m : Mem) (ptr : Nat) : Exec Mem :=
  if ptr = 0 then .ret m
  else
    let header := wrap32 (ptr + 2 ^ 32 - 8)
    if header < heapStart ∨ heapEnd ≤ header then .panic (outsideHeap ptr)
    else if isFree (m header) = true then .panic (doubleFree ptr)
    else if sizeOf (m header) = 0 then .panic (corruptedHeader ptr)
    else
      let m₁ := store m header (markFree (m header))
      let m₂ := forwardMerge m₁ header
      Exec.loop (backwardBody m₂ header) fuel heapStart

/-! ## Aligned allocation -/

/-- The test `alignment == 0 || (alignment & (alignment - 1)) != 0` that rejects
an alignment. -/
def badAlignment (alignment : Nat) : Bool :=
  alignment == 0 || (alignment &&& (alignment - 1)) != 0

/-- `(raw_addr + offset - 1) & ~(alignment - 1)`, for a power of two. -/
def alignAddr (rawAddr alignment : Nat) : Nat :=
  let a := wrap32 (rawAddr + (alignment + 4) - 1)
  a - a % alignment

/-- `kmalloc_aligned`. -/
def kmallocAligned (fuel : Nat) (m : Mem) (size alignment : Nat) : Exec (Mem × Nat) := do
  if badAlignment alignment then return (m, 0)
  let offset := wrap32 (alignment + 4)
  let (m₁, rawPtr) ← kmalloc fuel m (wrap32 (size + offset))
  if rawPtr = 0 then return (m₁, 0)
  let alignedAddr := alignAddr rawPtr alignment
  return (store m₁ (wrap32 (alignedAddr + 2 ^ 32 - 4)) rawPtr, alignedAddr)

/-- `kfree_aligned`. -/
def kfreeAligned (fuel : Nat) (m : Mem) (ptr : Nat) : Exec Mem :=
  if ptr = 0 then .ret m
  else kfree fuel m (m (wrap32 (ptr + 2 ^ 32 - 4)))

end BenmoshOS.Heap
