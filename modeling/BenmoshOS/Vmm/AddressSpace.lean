import BenmoshOS.Heap.Client
import BenmoshOS.Pmm.Invariant

/-!
# Address spaces: `memory/vmm/vmm.c`

`vmm_create_address_space` takes a frame for a page directory, copies the two
kernel entries of the master directory into it and clears the rest;
`vmm_destroy_address_space` frees the page tables of the user entries and the
directory itself.  Both reach the frame through the scratchpad: the last entry of
`first_page_table` is pointed at it, so that the virtual page 0x003FF000 names it.
The table is read at every access, which is what the `invlpg` after each change of
the entry achieves; the first eight megabytes are mapped one to one.

The kernel image is described by the addresses the linker gave to its objects.
What the two functions promise their callers is stated at the end: a fresh frame
with no user entries, and no write outside the two pages involved.
-/

namespace BenmoshOS

/-- The addresses of the kernel's objects, as the linker has placed them: below
the heap, the three tables on page boundaries. -/
structure Image where
  kernelEnd : Nat
  pageDirectory : Nat
  firstPageTable : Nat
  heapPageTable : Nat
  kernelTask : Nat
  taskExitTrampoline : Nat
  kernelEnd_le : kernelEnd ≤ 0x3FF000
  pageDirectory_aligned : 4096 ∣ pageDirectory
  firstPageTable_aligned : 4096 ∣ firstPageTable
  pageDirectory_le : pageDirectory + 4096 ≤ kernelEnd
  firstPageTable_le : firstPageTable + 4096 ≤ kernelEnd
  kernelTask_le : kernelTask + 44 ≤ kernelEnd

namespace Vmm

open Heap (Mem store)
open Exec

/-- `x & ~0xFFF`. -/
def pageOf (x : Nat) : Nat := x / 4096 * 4096

/-- The address of `first_page_table[1023]`, the entry of the scratchpad page. -/
def scratchEntry (img : Image) : Nat := img.firstPageTable + 4 * 1023

/-- The physical address of word `i` of the scratchpad at 0x003FF000. -/
def scratch (img : Image) (m : Mem) (i : Nat) : Nat := pageOf (m (scratchEntry img)) + 4 * i

/-- `scratchpad[i] = v`. -/
def setScratch (img : Image) (m : Mem) (i v : Nat) : Mem := store m (scratch img m i) v

/-- `w & ~4`: the user bit of a directory entry cleared. -/
def clearUser (w : Nat) : Nat := w &&& (2 ^ 32 - 1 - 4)

/-- `vmm_create_address_space`: the memory, the frames and the physical address of
the new page directory, 0 for `NULL`. -/
def createAddressSpace (img : Image) (m : Mem) (frames : Pmm.State) : Mem × Pmm.State × Nat :=
  let (frames, pdirPhys) := Pmm.allocFrame frames
  if pdirPhys = 0 then (m, frames, 0)
  else
    let m := store m (scratchEntry img) (pdirPhys ||| 3)
    let m := setScratch img m 0 (m img.firstPageTable ||| 3)
    let m := setScratch img m 1 (m img.heapPageTable ||| 3)
    let m := (List.range' 2 1022).foldl (fun m i => setScratch img m i 0) m
    let m := setScratch img m 0 (clearUser (m img.pageDirectory))
    let m := setScratch img m 1 (clearUser (m (img.pageDirectory + 4)))
    (store m (scratchEntry img) 0, frames, pdirPhys)

/-- The panic of `vmm_destroy_address_space` on `NULL`. -/
def nullPageDirectory : Panic :=
  ⟨"vmm_destroy_address_space: NULL page directory pointer!", []⟩

/-- The loop of `vmm_destroy_address_space` over the user entries. -/
def freeTables (img : Image) (m : Mem) : List Nat → Pmm.State → Exec Pmm.State
  | [], frames => .ret frames
  | i :: is, frames =>
      let entry := m (scratch img m i)
      if entry % 2 = 1 then do
        let frames ← Pmm.freeBlock frames (pageOf entry) 1
        freeTables img m is frames
      else freeTables img m is frames

/-- `vmm_destroy_address_space`. -/
def destroyAddressSpace (img : Image) (m : Mem) (frames : Pmm.State) (pageDirectoryPhys : Nat) :
    Exec (Mem × Pmm.State) :=
  if pageDirectoryPhys = 0 then .panic nullPageDirectory
  else do
    let m := store m (scratchEntry img) (pageDirectoryPhys ||| 3)
    let frames ← freeTables img m (List.range' 2 1022) frames
    let m := store m (scratchEntry img) 0
    let frames ← Pmm.freeBlock frames pageDirectoryPhys 1
    return (m, frames)

/-! ## The page directory of a task -/

/-- The directory at `cr3` has no user entries. -/
def NoUserEntries (m : Mem) (cr3 : Nat) : Prop :=
  ∀ i, 2 ≤ i → i < 1024 → m (cr3 + 4 * i) = 0

theorem pageOf_or_three {a : Nat} (ha : 4096 ∣ a) : pageOf (a ||| 3) = a := by
  obtain ⟨f, rfl⟩ := ha
  have hor : (4096 * f ||| 3) = 4096 * f + 3 := by
    rw [show 4096 * f = 2 ^ 12 * f by norm_num]
    exact (Nat.two_pow_add_eq_or_of_lt (by norm_num) f).symm
  rw [hor, pageOf]
  omega

/-- A page of memory that is neither in the kernel image nor in the heap. -/
structure UserFrame (img : Image) (a : Nat) : Prop where
  ne_zero : a ≠ 0
  aligned : 4096 ∣ a
  notImage : img.kernelEnd ≤ a
  notHeap : a < Heap.heapStart ∨ Heap.heapEnd ≤ a

/-- A frame that was handed out lies outside the kernel image and the heap. -/
theorem userFrame_of_owned {img : Image} {s : Pmm.State} {out : List Nat} {a : Nat}
    (h : Pmm.Owned img.kernelEnd s out) (ha : a ∈ out) : UserFrame img a := by
  obtain ⟨f, rfl, h0, hf, -, hp⟩ := h.frame a ha
  have hstart : Heap.heapStart = 0x400000 := rfl
  have hend : Heap.heapEnd = 0x800000 := rfl
  have hle := img.kernelEnd_le
  unfold Pmm.Protected at hp
  exact ⟨by omega, Dvd.intro_left f rfl, by omega, by omega⟩

theorem UserFrame.heap_outside {img : Image} {a x : Nat} (h : UserFrame img a)
    (hx : a ≤ x) (hxa : x < a + 4096) : x < Heap.heapStart ∨ Heap.heapEnd ≤ x := by
  obtain ⟨-, ⟨f, rfl⟩, -, hnh⟩ := h
  have hstart : Heap.heapStart = 0x400000 := rfl
  have hend : Heap.heapEnd = 0x800000 := rfl
  omega

theorem UserFrame.ne_scratchEntry {img : Image} {a x : Nat} (h : UserFrame img a)
    (hx : a ≤ x) : x ≠ scratchEntry img := by
  have := img.firstPageTable_le
  have := h.notImage
  unfold scratchEntry
  omega

theorem scratchEntry_lt (img : Image) : scratchEntry img < Heap.heapStart := by
  have := img.firstPageTable_le
  have := img.kernelEnd_le
  have hstart : Heap.heapStart = 0x400000 := rfl
  unfold scratchEntry
  omega

/-! ## Writes through the scratchpad -/

section Scratchpad

variable {img : Image} {a : Nat}

/-- While the scratchpad is mapped to the frame `a`, it is the frame `a`, and a
write through it changes one word of that frame. -/
theorem scratch_mapped {m : Mem} (ha : UserFrame img a) (hm : m (scratchEntry img) = a ||| 3)
    (i : Nat) : scratch img m i = a + 4 * i := by
  rw [scratch, hm, pageOf_or_three ha.aligned]

theorem setScratch_mapped {m : Mem} (ha : UserFrame img a)
    (hm : m (scratchEntry img) = a ||| 3) (i v : Nat) :
    setScratch img m i v = store m (a + 4 * i) v ∧
      setScratch img m i v (scratchEntry img) = a ||| 3 := by
  rw [setScratch, scratch_mapped ha hm]
  refine ⟨rfl, ?_⟩
  rw [store, Function.update_of_ne (ha.ne_scratchEntry (by omega)).symm, hm]

/-- The loop that clears the user entries. -/
theorem clear_mapped {m : Mem} (ha : UserFrame img a) (hm : m (scratchEntry img) = a ||| 3)
    (is : List Nat) :
    let m' := is.foldl (fun m i => setScratch img m i 0) m
    m' (scratchEntry img) = a ||| 3 ∧ (∀ i ∈ is, m' (a + 4 * i) = 0) ∧
      ∀ x, (∀ i ∈ is, x ≠ a + 4 * i) → m' x = m x := by
  induction is generalizing m with
  | nil => exact ⟨hm, by simp, fun x _ => rfl⟩
  | cons i is ih =>
      obtain ⟨heq, hm'⟩ := setScratch_mapped ha hm i 0
      obtain ⟨h1, h2, h3⟩ := ih hm'
      refine ⟨h1, fun j hj => ?_, fun x hx => ?_⟩
      · by_cases hji : j ∈ is
        · exact h2 j hji
        · obtain rfl : j = i := by simpa [hji] using hj
          rw [List.foldl_cons, h3 _ (fun k hk hkj => hji (by
            obtain rfl : k = j := by omega
            exact hk)), heq]
          exact Function.update_self _ _ _
      · rw [List.foldl_cons, h3 x (fun k hk => hx k (by simp [hk])), heq]
        exact Function.update_of_ne (hx i (by simp)) _ _

end Scratchpad

/-! ## What the callers rely on -/

/-- What `vmm_create_address_space` leaves behind: nothing new, or a fresh
directory with no user entries, and no word changed outside it but the entry of
the scratchpad. -/
def Created (img : Image) (m : Mem) (out : List Nat) (r : Mem × Pmm.State × Nat) : Prop :=
  (r.2.2 = 0 ∧ r.1 = m ∧ Pmm.Owned img.kernelEnd r.2.1 out) ∨
    (r.2.2 ∉ out ∧ UserFrame img r.2.2 ∧ Pmm.Owned img.kernelEnd r.2.1 (r.2.2 :: out) ∧
      NoUserEntries r.1 r.2.2 ∧
      ∀ x, x ≠ scratchEntry img → x < r.2.2 ∨ r.2.2 + 4096 ≤ x → r.1 x = m x)

/-- The memory after a directory has been created in the frame `a`. -/
def withDirectory (img : Image) (m : Mem) (a : Nat) : Mem := fun x =>
  if x = scratchEntry img then 0
  else if x = a then clearUser (m img.pageDirectory)
  else if x = a + 4 then clearUser (m (img.pageDirectory + 4))
  else if a + 8 ≤ x ∧ x < a + 4096 ∧ (x - a) % 4 = 0 then 0
  else m x

theorem createAddressSpace_eq {img : Image} {m : Mem} {frames frames' : Pmm.State} {a : Nat}
    (hal : Pmm.allocFrame frames = (frames', a)) (ha : UserFrame img a) :
    createAddressSpace img m frames = (withDirectory img m a, frames', a) := by
  rw [createAddressSpace, hal]
  simp only [if_neg ha.ne_zero]
  refine Prod.ext ?_ rfl
  have hle := img.pageDirectory_le
  have himg := ha.notImage
  -- the entry of the scratchpad holds the frame from the first write to the last
  set m₀ := store m (scratchEntry img) (a ||| 3) with hm₀
  have hs₀ : m₀ (scratchEntry img) = a ||| 3 := Function.update_self _ _ _
  obtain ⟨h₁, hs₁⟩ := setScratch_mapped ha hs₀ 0 (m₀ img.firstPageTable ||| 3)
  set m₁ := setScratch img m₀ 0 (m₀ img.firstPageTable ||| 3)
  obtain ⟨h₂, hs₂⟩ := setScratch_mapped ha hs₁ 1 (m₁ img.heapPageTable ||| 3)
  set m₂ := setScratch img m₁ 1 (m₁ img.heapPageTable ||| 3)
  obtain ⟨hs₃, hzero, hother⟩ := clear_mapped ha hs₂ (List.range' 2 1022)
  set m₃ := (List.range' 2 1022).foldl (fun m i => setScratch img m i 0) m₂
  obtain ⟨h₄, hs₄⟩ := setScratch_mapped ha hs₃ 0 (clearUser (m₃ img.pageDirectory))
  set m₄ := setScratch img m₃ 0 (clearUser (m₃ img.pageDirectory))
  obtain ⟨h₅, -⟩ := setScratch_mapped ha hs₄ 1 (clearUser (m₄ (img.pageDirectory + 4)))
  set m₅ := setScratch img m₄ 1 (clearUser (m₄ (img.pageDirectory + 4)))
  simp only [store] at h₁ h₂ h₄ h₅ hm₀
  -- up to the second half of the writes only the frame and the scratchpad have changed
  have hfar : ∀ x, x ≠ scratchEntry img → ¬ (a ≤ x ∧ x < a + 4096 ∧ (x - a) % 4 = 0) →
      m₃ x = m x := by
    intro x hx hxa
    rw [hother x fun i hi => ?_, h₂, Function.update_of_ne (by omega), h₁,
      Function.update_of_ne (by omega), hm₀, Function.update_of_ne hx]
    obtain ⟨j, hj, rfl⟩ := List.mem_range'.1 hi
    omega
  have hse : img.pageDirectory ≠ scratchEntry img ∧ img.pageDirectory + 4 ≠ scratchEntry img := by
    obtain ⟨p, hp⟩ := img.pageDirectory_aligned
    obtain ⟨q, hq⟩ := img.firstPageTable_aligned
    unfold scratchEntry
    omega
  have hpd : m₃ img.pageDirectory = m img.pageDirectory := hfar _ hse.1 (by omega)
  have hpd' : m₄ (img.pageDirectory + 4) = m (img.pageDirectory + 4) := by
    rw [h₄, Function.update_of_ne (by omega)]
    exact hfar _ hse.2 (by omega)
  rw [hpd] at h₄
  rw [hpd'] at h₅
  funext x
  unfold withDirectory
  simp only [store]
  by_cases hx : x = scratchEntry img
  · rw [hx, Function.update_self, if_pos rfl]
  · rw [Function.update_of_ne hx, if_neg hx, h₅]
    by_cases hx₁ : x = a + 4 * 1
    · rw [hx₁, Function.update_self, if_neg (by omega), if_pos (by omega)]
    · rw [Function.update_of_ne hx₁, h₄]
      by_cases hx₀ : x = a + 4 * 0
      · rw [hx₀, Function.update_self, if_pos (by omega)]
      · rw [Function.update_of_ne hx₀, if_neg (by omega), if_neg (by omega)]
        by_cases hin : a + 8 ≤ x ∧ x < a + 4096 ∧ (x - a) % 4 = 0
        · rw [if_pos hin, show x = a + 4 * ((x - a) / 4) by omega]
          exact hzero _ (List.mem_range'.2 ⟨(x - a) / 4 - 2, by omega, by omega⟩)
        · rw [if_neg hin]
          exact hfar x hx (by omega)

/-- The frame of a new directory comes from `pmm_alloc_frame`. -/
theorem createAddressSpace_frames {img : Image} {m m' : Mem} {frames frames' : Pmm.State} {a : Nat}
    (h : createAddressSpace img m frames = (m', frames', a)) :
    Pmm.allocFrame frames = (frames', a) := by
  rcases hal : Pmm.allocFrame frames with ⟨frames₁, b⟩
  rw [createAddressSpace, hal] at h
  by_cases hb : b = 0
  · simp only [if_pos hb, Prod.mk.injEq] at h
    rw [h.2.1, ← h.2.2, hb]
  · simp only [if_neg hb, Prod.mk.injEq] at h
    rw [h.2.1, h.2.2]

theorem createAddressSpace_spec {img : Image} {m : Mem} {frames : Pmm.State} {out : List Nat}
    (h : Pmm.Owned img.kernelEnd frames out) :
    Created img m out (createAddressSpace img m frames) := by
  rcases hal : Pmm.allocFrame frames with ⟨frames', a⟩
  have hown := h.alloc hal
  by_cases ha0 : a = 0
  · rw [if_pos ha0] at hown
    rw [createAddressSpace, hal]
    simp only [if_pos ha0]
    exact Or.inl ⟨rfl, rfl, hown⟩
  · rw [if_neg ha0] at hown
    have ha : UserFrame img a := userFrame_of_owned hown (by simp)
    rw [createAddressSpace_eq hal ha]
    refine Or.inr ⟨(List.nodup_cons.1 hown.nodup).1, ha, hown, fun i hi hi' => ?_,
      fun x hx hxa => ?_⟩
    · have hne := ha.ne_scratchEntry (x := a + 4 * i) (by omega)
      change withDirectory img m a (a + 4 * i) = 0
      rw [withDirectory, if_neg hne, if_neg (by omega), if_neg (by omega), if_pos (by omega)]
    · replace hxa : x < a ∨ a + 4096 ≤ x := hxa
      change withDirectory img m a x = m x
      rw [withDirectory, if_neg hx, if_neg (by omega), if_neg (by omega), if_neg (by omega)]

theorem freeTables_of_noUserEntries {img : Image} {m : Mem} {frames : Pmm.State} {a : Nat}
    (ha : UserFrame img a) (hm : m (scratchEntry img) = a ||| 3) (hz : NoUserEntries m a)
    {is : List Nat} (his : ∀ i ∈ is, 2 ≤ i ∧ i < 1024) :
    freeTables img m is frames = .ret frames := by
  induction is with
  | nil => rfl
  | cons i is ih =>
      have hi := his i (by simp)
      simp only [freeTables]
      rw [scratch_mapped ha hm, hz i hi.1 hi.2, if_neg (by norm_num)]
      exact ih fun j hj => his j (by simp [hj])

/-- Destroying an address space without user entries gives its frame back and
changes no word but the entry of the scratchpad. -/
theorem destroyAddressSpace_spec {img : Image} {m : Mem} {frames : Pmm.State} {out : List Nat}
    {a : Nat} (h : Pmm.Owned img.kernelEnd frames out) (ha : a ∈ out) (hz : NoUserEntries m a) :
    ∃ m' frames', destroyAddressSpace img m frames a = .ret (m', frames') ∧
      Pmm.freeBlock frames a 1 = .ret frames' ∧ Pmm.Owned img.kernelEnd frames' (out.erase a) ∧
      ∀ x, x ≠ scratchEntry img → m' x = m x := by
  have hu := userFrame_of_owned h ha
  obtain ⟨frames', hfree, hown⟩ := h.free ha
  have hz' : NoUserEntries (store m (scratchEntry img) (a ||| 3)) a := fun i hi hi' => by
    rw [store, Function.update_of_ne (hu.ne_scratchEntry (by omega)), hz i hi hi']
  have htables : freeTables img (store m (scratchEntry img) (a ||| 3)) (List.range' 2 1022) frames
      = .ret frames := by
    refine freeTables_of_noUserEntries hu (Function.update_self _ _ _) hz' fun i hi => ?_
    obtain ⟨j, hj, rfl⟩ := List.mem_range'.1 hi
    omega
  refine ⟨store (store m (scratchEntry img) (a ||| 3)) (scratchEntry img) 0, frames', ?_, hfree,
    hown, fun x hx => ?_⟩
  · rw [destroyAddressSpace, if_neg hu.ne_zero]
    simp only [htables, ret_bind, hfree, pure_eq]
  · simp only [store]
    rw [Function.update_of_ne hx, Function.update_of_ne hx]

end Vmm

/-! ## A small machine

A kernel image and a firmware map with a single usable frame, at 8 MB, on which one
directory can be created: the setting of concrete runs. -/

/-- A kernel image that ends at 0x30000. -/
def smallImage : Image where
  kernelEnd := 0x30000
  pageDirectory := 0x20000
  firstPageTable := 0x21000
  heapPageTable := 0x22000
  kernelTask := 0x23000
  taskExitTrampoline := 0x8000
  kernelEnd_le := by decide
  pageDirectory_aligned := by decide
  firstPageTable_aligned := by decide
  pageDirectory_le := by decide
  firstPageTable_le := by decide
  kernelTask_le := by decide

/-- A firmware map with one usable frame behind the heap. -/
def oneFrame : List Pmm.MemorymapEntry := [⟨0x800000, 0x1000, 1⟩]

theorem not_used_oneFrame : ¬ Pmm.Used (Pmm.pmmInit oneFrame 0x30000) 2048 := by
  have htf : (2048 : Nat) < Pmm.totalFrames := by decide
  have hlow : wrap32 (0x100000 + 4095) / 4096 = 256 := rfl
  have hheap : wrap32 (0x400000 + 4095) / 4096 = 1024 := rfl
  have hscan : Pmm.scanMap oneFrame Pmm.allUsed = (Pmm.markFree Pmm.allUsed 2048).countUp := rfl
  simp only [Pmm.pmmInit]
  rw [Pmm.used_reserveBlock htf (by rw [hheap]; omega), hheap, if_neg (by norm_num),
    Pmm.used_reserveBlock htf (by rw [hlow]; omega), hlow, hscan, Pmm.used_countUp,
    Pmm.used_markFree htf]
  omega

theorem allocFrame_oneFrame : (Pmm.allocFrame (Pmm.pmmInit oneFrame 0x30000)).2 ≠ 0 := by
  rcases Pmm.allocFrame_spec (Pmm.pmmInit oneFrame 0x30000) with ⟨-, hall⟩ | ⟨f, h0, -, -, hsome⟩
  · exact absurd (hall 2048 (by norm_num) (by decide)) not_used_oneFrame
  · rw [hsome]
    simp only
    omega

end BenmoshOS
