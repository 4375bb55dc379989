import BenmoshOS.Vmm.AddressSpace

/-!
# Paging: the mapping functions of `memory/vmm/vmm.c`

The functions that read and write page tables, on the same word memory as
`vmm_create_address_space`: every access to a table goes through the scratchpad
page 0x003FF000, whose entry in `first_page_table` is redirected up to four times in
one call.  `page_directory` and `first_page_table` themselves are accessed at their
own addresses, which the kernel has mapped one to one.

* `walk` — the translation of a page: the entry of the page table that the directory
  names, when both are present.
* `withEntry`, `withTable` — the memory after a table entry has been written, and
  after a new table has been linked into a directory.  `mapPage_cases`,
  `mapPageInPdir_cases`, `mapPageCurrent_cases`, … say which of the two a returning
  call has done.
-/

namespace BenmoshOS.Vmm

open Heap (Mem store)
open Exec

/-! ## The functions -/

/-- `virtual_address >> 22`. -/
def pdiOf (virt : Nat) : Nat := virt / 2 ^ 22

/-- `(virtual_address >> 12) & 0x03FF`. -/
def ptiOf (virt : Nat) : Nat := virt / 4096 % 1024

/-- `first_page_table[1023] = entry`, followed by `invlpg`. -/
def mapScratch (img : Image) (m : Mem) (entry : Nat) : Mem := store m (scratchEntry img) entry

/-- `scratchpad[i]`. -/
def getScratch (img : Image) (m : Mem) (i : Nat) : Nat := m (scratch img m i)

/-- The loop that zeroes a new page table through the scratchpad. -/
def zeroScratch (img : Image) (m : Mem) : Mem :=
  (List.range 1024).foldl (fun m i => setScratch img m i 0) m

/-- `table[i] = entry(i)` for the 1024 entries of a table of the image. -/
def fillTable (m : Mem) (table : Nat) (entry : Nat → Nat) : Mem :=
  (List.range 1024).foldl (fun m i => store m (table + 4 * i) (entry i)) m

/-- `vmm_init`: the memory afterwards.  `CR3` is loaded with `page_directory`. -/
def vmmInit (img : Image) (m : Mem) : Mem :=
  let m := fillTable m img.firstPageTable fun i => i * 4096 ||| 3
  let m := fillTable m img.heapPageTable fun i => (i + 1024) * 4096 ||| 3
  let m := store m img.pageDirectory (img.firstPageTable ||| 3)
  store m (img.pageDirectory + 4) (img.heapPageTable ||| 3)

def notAligned (function : String) (virt : Nat) : Panic :=
  ⟨function ++ ": Virtual address 0x%x is not 4KB aligned!", [virt]⟩

def notAllocated (phys : Nat) : Panic :=
  ⟨"vmm_map_page: Physical address 0x%x is not allocated in PMM!", [phys]⟩

def outOfMemory : Panic := ⟨"VMM Out of Memory! PMM returned 0.", []⟩

/-- The branch of `vmm_map_page` for a missing page table. -/
def addTable (img : Image) (m : Mem) (frames : Pmm.State) (pdi : Nat) : Exec (Mem × Pmm.State) :=
  let (frames, newTable) := Pmm.allocFrame frames
  if newTable = 0 then .panic outOfMemory
  else
    let m := store m (img.pageDirectory + 4 * pdi) (newTable ||| 7)
    let m := mapScratch img m (newTable ||| 7)
    let m := zeroScratch img m
    .ret (mapScratch img m 0, frames)

/-- `vmm_map_page`. -/
def mapPage (img : Image) (m : Mem) (frames : Pmm.State) (phys virt flags : Nat) :
    Exec (Mem × Pmm.State) :=
  if virt % 4096 ≠ 0 then .panic (notAligned "vmm_map_page" virt)
  else if Pmm.isFrameFree frames (phys / 4096) then .panic (notAllocated phys)
  else do
    let (m, frames) ← if m (img.pageDirectory + 4 * pdiOf virt) % 2 = 0 then
        addTable img m frames (pdiOf virt)
      else .ret (m, frames)
    let m := mapScratch img m (pageOf (m (img.pageDirectory + 4 * pdiOf virt)) ||| 3)
    let m := setScratch img m (ptiOf virt) (phys ||| flags)
    return (mapScratch img m 0, frames)

/-- `vmm_unmap_page`. -/
def unmapPage (img : Image) (m : Mem) (virt : Nat) : Mem :=
  if m (img.pageDirectory + 4 * pdiOf virt) % 2 = 0 then m
  else
    let m := mapScratch img m (pageOf (m (img.pageDirectory + 4 * pdiOf virt)) ||| 3)
    let m := setScratch img m (ptiOf virt) 0
    mapScratch img m 0

/-- `vmm_get_physical`: the memory afterwards and the physical address, 0 for a page
that is not mapped. -/
def getPhysical (img : Image) (m : Mem) (virt : Nat) : Mem × Nat :=
  if m (img.pageDirectory + 4 * pdiOf virt) % 2 = 0 then (m, 0)
  else
    let m := mapScratch img m (pageOf (m (img.pageDirectory + 4 * pdiOf virt)) ||| 3)
    let pte := getScratch img m (ptiOf virt)
    (mapScratch img m 0, if pte % 2 = 1 then pageOf pte ||| virt % 4096 else 0)

/-- The branch of `vmm_map_page_current` for a missing page table.  The scratchpad is
left at the new table. -/
def addTableCurrent (img : Image) (m : Mem) (frames : Pmm.State) (pdi : Nat) :
    Exec (Mem × Pmm.State) :=
  let (frames, newTable) := Pmm.allocFrame frames
  if newTable = 0 then .panic outOfMemory
  else
    let m := setScratch img m pdi (newTable ||| 7)
    let m := mapScratch img m (newTable ||| 3)
    .ret (zeroScratch img m, frames)

/-- `vmm_map_page_current`, for the value of `CR3`. -/
def mapPageCurrent (img : Image) (cr3 : Nat) (m : Mem) (frames : Pmm.State)
    (phys virt flags : Nat) : Exec (Mem × Pmm.State) :=
  if virt % 4096 ≠ 0 then .panic (notAligned "vmm_map_page_current" virt)
  else do
    let m := mapScratch img m (cr3 ||| 3)
    let (m, frames) ← if getScratch img m (pdiOf virt) % 2 = 0 then
        addTableCurrent img m frames (pdiOf virt)
      else .ret (m, frames)
    -- `pdir[pdi]` is read through whatever the scratchpad is mapped to
    let m := mapScratch img m (pageOf (getScratch img m (pdiOf virt)) ||| 3)
    let m := setScratch img m (ptiOf virt) (phys ||| flags)
    return (mapScratch img m 0, frames)

def outOfMemoryInPdir : Panic := ⟨"vmm_map_page_in_pdir: Out of memory!", []⟩

/-- The branch of `vmm_map_page_in_pdir` for a missing page table.  The scratchpad is
mapped back to the directory. -/
def addTableInPdir (img : Image) (m : Mem) (frames : Pmm.State) (pdirPhys pdi : Nat) :
    Exec (Mem × Pmm.State) :=
  let (frames, newTable) := Pmm.allocFrame frames
  if newTable = 0 then .panic outOfMemoryInPdir
  else
    let m := setScratch img m pdi (newTable ||| 7)
    let m := mapScratch img m (newTable ||| 3)
    let m := zeroScratch img m
    .ret (mapScratch img m (pageOf pdirPhys ||| 3), frames)

/-- `vmm_map_page_in_pdir`. -/
def mapPageInPdir (img : Image) (m : Mem) (frames : Pmm.State) (pdirPhys phys virt flags : Nat) :
    Exec (Mem × Pmm.State) := do
  let m := mapScratch img m (pageOf pdirPhys ||| 3)
  let (m, frames) ← if getScratch img m (pdiOf virt) % 2 = 0 then
      addTableInPdir img m frames pdirPhys (pdiOf virt)
    else .ret (m, frames)
  let m := mapScratch img m (pageOf (getScratch img m (pdiOf virt)) ||| 3)
  let m := setScratch img m (ptiOf virt) (pageOf phys ||| flags)
  return (mapScratch img m 0, frames)

/-! ## Translation -/

/-- The directory entry for a virtual address. -/
def pde (m : Mem) (dir virt : Nat) : Nat := m (dir + 4 * pdiOf virt)

/-- The address of the table entry for a virtual address. -/
def pteAddr (m : Mem) (dir virt : Nat) : Nat := pageOf (pde m dir virt) + 4 * ptiOf virt

/-- The walk of a directory: the table entry of a page that is mapped. -/
def walk (m : Mem) (dir virt : Nat) : Option Nat :=
  if pde m dir virt % 2 = 1 ∧ m (pteAddr m dir virt) % 2 = 1 then some (m (pteAddr m dir virt))
  else none

/-- A mapped page that user code may access: the user bit is set in both entries. -/
def UserAccessible (m : Mem) (dir virt : Nat) : Prop :=
  pde m dir virt % 2 = 1 ∧ pde m dir virt / 4 % 2 = 1 ∧ m (pteAddr m dir virt) % 2 = 1 ∧
    m (pteAddr m dir virt) / 4 % 2 = 1

theorem walk_congr {m m' : Mem} {dir virt : Nat} (hpde : pde m' dir virt = pde m dir virt)
    (hpte : pde m dir virt % 2 = 1 → m' (pteAddr m dir virt) = m (pteAddr m dir virt)) :
    walk m' dir virt = walk m dir virt := by
  have haddr : pteAddr m' dir virt = pteAddr m dir virt := by rw [pteAddr, hpde, pteAddr]
  unfold walk
  rw [hpde, haddr]
  by_cases hp : pde m dir virt % 2 = 1
  · rw [hpte hp]
  · rw [if_neg fun h => hp h.1, if_neg fun h => hp h.1]

theorem pageOf_or {a b : Nat} (ha : 4096 ∣ a) (hb : b < 4096) : a ||| b = a + b := by
  obtain ⟨f, rfl⟩ := ha
  rw [show 4096 * f = 2 ^ 12 * f by norm_num]
  exact (Nat.two_pow_add_eq_or_of_lt hb f).symm

theorem pageOf_or_of_lt {a b : Nat} (ha : 4096 ∣ a) (hb : b < 4096) : pageOf (a ||| b) = a := by
  rw [pageOf_or ha hb, pageOf]
  obtain ⟨f, rfl⟩ := ha
  omega

theorem pageOf_dvd (a : Nat) : 4096 ∣ pageOf a := Dvd.intro_left _ rfl

/-- Low bits do not change the page. -/
theorem pageOf_or_low (a : Nat) {b : Nat} (hb : b < 4096) : pageOf (a ||| b) = pageOf a := by
  have ha : a = pageOf a ||| a % 4096 := by
    rw [pageOf_or (pageOf_dvd a) (Nat.mod_lt _ (by norm_num)), pageOf]
    omega
  have hlow : a % 4096 ||| b < 2 ^ 12 := Nat.or_lt_two_pow (Nat.mod_lt _ (by norm_num)) hb
  conv_lhs => rw [ha, Nat.or_assoc]
  exact pageOf_or_of_lt (pageOf_dvd a) hlow

theorem pageOf_of_dvd {a : Nat} (h : 4096 ∣ a) : pageOf a = a := by
  obtain ⟨f, rfl⟩ := h
  unfold pageOf
  omega

theorem pdiOf_lt {virt : Nat} (h : virt < 2 ^ 32) : pdiOf virt < 1024 := by
  unfold pdiOf
  omega

theorem ptiOf_lt (virt : Nat) : ptiOf virt < 1024 := Nat.mod_lt _ (by decide)

/-! ## What the scratchpad does -/

section Scratchpad

variable {img : Image} {m : Mem} {a i v : Nat}

/-- The memory after entry `i` of the table `t` has been written. -/
def withEntry (img : Image) (m : Mem) (t i v : Nat) : Mem :=
  store (store m (t + 4 * i) v) (scratchEntry img) 0

/-- `x` is one of the first `n` words of the table `t`. -/
def TableWord (t n x : Nat) : Prop := t ≤ x ∧ x < t + 4 * n ∧ (x - t) % 4 = 0

instance (t n x : Nat) : Decidable (TableWord t n x) := inferInstanceAs (Decidable (_ ∧ _))

theorem tableWord_iff {t n x : Nat} : TableWord t n x ↔ ∃ i, i < n ∧ x = t + 4 * i := by
  unfold TableWord
  constructor
  · rintro ⟨h₁, h₂, h₃⟩
    exact ⟨(x - t) / 4, by omega, by omega⟩
  · rintro ⟨i, hi, rfl⟩
    omega

/-- The memory after the new table `t` has been linked as entry `pdi` of `dir`. -/
def withTable (img : Image) (m : Mem) (dir pdi t : Nat) : Mem := fun x =>
  if x = scratchEntry img then 0
  else if TableWord t 1024 x then 0
  else if x = dir + 4 * pdi then t ||| 7 else m x

theorem withEntry_apply (x : Nat) : withEntry img m a i v x =
    if x = scratchEntry img then 0 else if x = a + 4 * i then v else m x := by
  unfold withEntry store
  by_cases hx : x = scratchEntry img
  · rw [hx, Function.update_self, if_pos rfl]
  · rw [Function.update_of_ne hx, if_neg hx, Function.update_apply]

theorem mapScratch_self (entry : Nat) : mapScratch img m entry (scratchEntry img) = entry := by
  rw [mapScratch, store, Function.update_self]

theorem mapScratch_of_ne {entry x : Nat} (hx : x ≠ scratchEntry img) :
    mapScratch img m entry x = m x := Function.update_of_ne hx _ _

theorem mapScratch_of_eq {entry : Nat} (h : m (scratchEntry img) = entry) :
    mapScratch img m entry = m := by
  rw [mapScratch, store, ← h, Function.update_eq_self]

@[simp] theorem mapScratch_mapScratch {entry entry' : Nat} :
    mapScratch img (mapScratch img m entry) entry' = mapScratch img m entry' :=
  Function.update_idem ..

theorem scratch_of_page (hm : pageOf (m (scratchEntry img)) = a) (i : Nat) :
    scratch img m i = a + 4 * i := by
  rw [scratch, hm]

/-- A read through the scratchpad. -/
theorem getScratch_mapScratch {entry : Nat} (ha : pageOf entry = a)
    (hne : a + 4 * i ≠ scratchEntry img) :
    getScratch img (mapScratch img m entry) i = m (a + 4 * i) := by
  rw [getScratch, scratch_of_page (by rw [mapScratch_self, ha]), mapScratch_of_ne hne]

/-- A write through the scratchpad, after which the scratchpad is unmapped. -/
theorem setScratch_mapScratch {entry : Nat} (ha : pageOf entry = a) :
    mapScratch img (setScratch img (mapScratch img m entry) i v) 0 = withEntry img m a i v := by
  funext x
  rw [withEntry_apply]
  by_cases hx : x = scratchEntry img
  · rw [hx, mapScratch_self, if_pos rfl]
  · rw [mapScratch_of_ne hx, if_neg hx, setScratch,
      scratch_of_page (by rw [mapScratch_self, ha]), store, Function.update_apply,
      mapScratch_of_ne hx]

theorem zeroScratch_eq (hm : pageOf (m (scratchEntry img)) = a)
    (hne : ¬ TableWord a 1024 (scratchEntry img)) :
    zeroScratch img m = fun x => if TableWord a 1024 x then 0 else m x := by
  have hsteps : ∀ n, n ≤ 1024 → (List.range n).foldl (fun m i => setScratch img m i 0) m =
      fun x => if TableWord a n x then 0 else m x := by
    intro n
    induction n with
    | zero =>
        intro _
        funext x
        rw [if_neg fun h => by unfold TableWord at h; omega]
        rfl
    | succ n ih =>
        intro hn
        have hself : ¬ TableWord a n (scratchEntry img) := by
          unfold TableWord at hne ⊢
          omega
        rw [List.range_succ, List.foldl_append, List.foldl_cons, List.foldl_nil, ih (by omega)]
        unfold setScratch
        rw [scratch_of_page (a := a) (by rw [if_neg hself, hm])]
        funext x
        rw [store, Function.update_apply]
        by_cases hx : x = a + 4 * n
        · rw [if_pos hx, if_pos (by unfold TableWord; omega)]
        · rw [if_neg hx]
          refine if_congr ?_ rfl rfl
          unfold TableWord
          omega
  exact hsteps 1024 (le_refl _)

end Scratchpad

/-! ## What the functions do -/

section Functions

variable {img : Image} {m m' : Mem} {frames frames' : Pmm.State} {dir t pdi : Nat}

/-- The frame `t` is a page of its own: it holds neither the scratchpad entry nor the
directory entry that is about to name it. -/
structure Apart (img : Image) (dir pdi t : Nat) : Prop where
  aligned : 4096 ∣ t
  not_scratch : ¬ TableWord t 1024 (scratchEntry img)
  not_entry : ¬ TableWord t 1024 (dir + 4 * pdi)

theorem withTable_entry (h : Apart img dir pdi t) (hdir : dir + 4 * pdi ≠ scratchEntry img) :
    withTable img m dir pdi t (dir + 4 * pdi) = t ||| 7 := by
  rw [withTable, if_neg hdir, if_neg h.not_entry, if_pos rfl]

/-- Zeroing the new table after its directory entry has been written. -/
theorem zeroScratch_link {entry : Nat} (h : Apart img dir pdi t) (hentry : pageOf entry = t)
    (hm : ∀ x, x ≠ scratchEntry img → m' x = if x = dir + 4 * pdi then t ||| 7 else m x)
    (last : Nat) :
    mapScratch img (zeroScratch img (mapScratch img m' entry)) last =
      mapScratch img (withTable img m dir pdi t) last := by
  rw [zeroScratch_eq (by rw [mapScratch_self, hentry]) h.not_scratch]
  funext x
  by_cases hx : x = scratchEntry img
  · rw [hx, mapScratch_self, mapScratch_self]
  · rw [mapScratch_of_ne hx, mapScratch_of_ne hx, mapScratch_of_ne hx, withTable, if_neg hx, hm x hx]

theorem mapScratch_withTable : mapScratch img (withTable img m dir pdi t) 0 =
    withTable img m dir pdi t := by
  funext x
  by_cases hx : x = scratchEntry img
  · rw [hx, mapScratch_self, withTable, if_pos rfl]
  · rw [mapScratch_of_ne hx]

theorem addTable_eq (hal : Pmm.allocFrame frames = (frames', t)) (ht : t ≠ 0)
    (h : Apart img img.pageDirectory pdi t) :
    addTable img m frames pdi = .ret (withTable img m img.pageDirectory pdi t, frames') := by
  rw [addTable, hal]
  simp only [if_neg ht]
  rw [zeroScratch_link h (pageOf_or_of_lt h.aligned (by norm_num))
    (fun x _ => by rw [store, Function.update_apply]) 0, mapScratch_withTable]

/-- The directory entry that is written through the scratchpad. -/
theorem setScratch_entry {entry v x : Nat} (hentry : pageOf entry = dir)
    (hx : x ≠ scratchEntry img) :
    setScratch img (mapScratch img m entry) pdi v x = if x = dir + 4 * pdi then v else m x := by
  rw [setScratch, scratch_of_page (by rw [mapScratch_self, hentry]), store, Function.update_apply,
    mapScratch_of_ne hx]

theorem addTableInPdir_eq {pdirPhys : Nat} (hal : Pmm.allocFrame frames = (frames', t)) (ht : t ≠ 0)
    (h : Apart img (pageOf pdirPhys) pdi t) :
    addTableInPdir img (mapScratch img m (pageOf pdirPhys ||| 3)) frames pdirPhys pdi =
      .ret (mapScratch img (withTable img m (pageOf pdirPhys) pdi t) (pageOf pdirPhys ||| 3),
        frames') := by
  have hdir := pageOf_or_of_lt (b := 3) (pageOf_dvd pdirPhys) (by norm_num)
  rw [addTableInPdir, hal]
  simp only [if_neg ht]
  rw [zeroScratch_link h (pageOf_or_of_lt h.aligned (by norm_num))
    (fun x hx => setScratch_entry hdir hx)]

theorem addTableCurrent_eq {cr3 : Nat} (hal : Pmm.allocFrame frames = (frames', t)) (ht : t ≠ 0)
    (hdir : pageOf (cr3 ||| 3) = dir) (h : Apart img dir pdi t) :
    addTableCurrent img (mapScratch img m (cr3 ||| 3)) frames pdi =
      .ret (mapScratch img (withTable img m dir pdi t) (t ||| 3), frames') := by
  rw [addTableCurrent, hal]
  simp only [if_neg ht]
  have ht3 := pageOf_or_of_lt (b := 3) h.aligned (by norm_num)
  -- the loop does not touch the entry of the scratchpad
  have hself : zeroScratch img (mapScratch img
      (setScratch img (mapScratch img m (cr3 ||| 3)) pdi (t ||| 7)) (t ||| 3)) (scratchEntry img) =
      t ||| 3 := by
    rw [zeroScratch_eq (by rw [mapScratch_self, ht3]) h.not_scratch]
    exact (if_neg h.not_scratch).trans (mapScratch_self _)
  rw [← zeroScratch_link h ht3 (fun x hx => setScratch_entry hdir hx) (t ||| 3),
    mapScratch_of_eq hself]

/-- What a returning call has done for the page `virt` of the directory `dir`: it has
written an entry of the table that was there, or of a new one. -/
inductive Mapped (img : Image) (m : Mem) (frames : Pmm.State) (dir virt v : Nat) :
    Mem → Pmm.State → Prop
  | present (h : m (dir + 4 * pdiOf virt) % 2 = 1) :
      Mapped img m frames dir virt v
        (withEntry img m (pageOf (m (dir + 4 * pdiOf virt))) (ptiOf virt) v) frames
  | absent {frames' : Pmm.State} {t : Nat} (h : m (dir + 4 * pdiOf virt) % 2 = 0)
      (hal : Pmm.allocFrame frames = (frames', t)) (ht : t ≠ 0) :
      Mapped img m frames dir virt v
        (withEntry img (withTable img m dir (pdiOf virt) t) t (ptiOf virt) v) frames'

theorem Mapped.scratch {dir virt v : Nat} (h : Mapped img m frames dir virt v m' frames') :
    m' (scratchEntry img) = 0 := by
  cases h with
  | present _ => rw [withEntry_apply, if_pos rfl]
  | absent _ _ _ => rw [withEntry_apply, if_pos rfl]

theorem mapPage_cases {phys virt flags : Nat}
    (hrun : mapPage img m frames phys virt flags = .ret (m', frames'))
    (hdir : img.pageDirectory + 4 * pdiOf virt ≠ scratchEntry img)
    (hapart : ∀ frames' t, Pmm.allocFrame frames = (frames', t) → t ≠ 0 →
      Apart img img.pageDirectory (pdiOf virt) t) :
    virt % 4096 = 0 ∧ Pmm.isFrameFree frames (phys / 4096) = false ∧
      Mapped img m frames img.pageDirectory virt (phys ||| flags) m' frames' := by
  unfold mapPage at hrun
  split at hrun
  · cases hrun
  · rename_i halign
    split at hrun
    · cases hrun
    · rename_i hfree
      refine ⟨not_not.1 halign, Bool.eq_false_iff.2 hfree, ?_⟩
      split at hrun
      · rename_i hp
        rcases hal : Pmm.allocFrame frames with ⟨frames₁, t⟩
        by_cases ht : t = 0
        · rw [addTable, hal] at hrun
          simp [ht] at hrun
        · have ha := hapart _ _ hal ht
          rw [addTable_eq hal ht ha] at hrun
          simp only [ret_bind, pure_eq, withTable_entry ha hdir,
            pageOf_or_of_lt ha.aligned (show 7 < 4096 by norm_num)] at hrun
          rw [setScratch_mapScratch (pageOf_or_of_lt ha.aligned (by norm_num))] at hrun
          cases hrun
          exact .absent hp hal ht
      · rename_i hp
        simp only [ret_bind, pure_eq] at hrun
        rw [setScratch_mapScratch (pageOf_or_of_lt (pageOf_dvd _) (by norm_num))] at hrun
        cases hrun
        exact .present (by omega)

theorem mapPageInPdir_cases {pdirPhys phys virt flags : Nat}
    (hrun : mapPageInPdir img m frames pdirPhys phys virt flags = .ret (m', frames'))
    (hdir : pageOf pdirPhys + 4 * pdiOf virt ≠ scratchEntry img)
    (hapart : ∀ frames' t, Pmm.allocFrame frames = (frames', t) → t ≠ 0 →
      Apart img (pageOf pdirPhys) (pdiOf virt) t) :
    Mapped img m frames (pageOf pdirPhys) virt (pageOf phys ||| flags) m' frames' := by
  have hpage := pageOf_or_of_lt (b := 3) (pageOf_dvd pdirPhys) (by norm_num)
  unfold mapPageInPdir at hrun
  simp only [getScratch_mapScratch hpage hdir] at hrun
  split at hrun
  · rename_i hp
    rcases hal : Pmm.allocFrame frames with ⟨frames₁, t⟩
    by_cases ht : t = 0
    · rw [addTableInPdir, hal] at hrun
      simp [ht] at hrun
    · have ha := hapart _ _ hal ht
      rw [addTableInPdir_eq hal ht ha] at hrun
      simp only [ret_bind, pure_eq, getScratch_mapScratch hpage hdir, withTable_entry ha hdir,
        pageOf_or_of_lt ha.aligned (show 7 < 4096 by norm_num), mapScratch_mapScratch] at hrun
      rw [setScratch_mapScratch (pageOf_or_of_lt ha.aligned (by norm_num))] at hrun
      cases hrun
      exact .absent hp hal ht
  · rename_i hp
    simp only [ret_bind, pure_eq, getScratch_mapScratch hpage hdir, mapScratch_mapScratch] at hrun
    rw [setScratch_mapScratch (pageOf_or_of_lt (pageOf_dvd _) (by norm_num))] at hrun
    cases hrun
    exact .present (by omega)

/-- `vmm_map_page` of an allocated frame fails only when there is no frame for a table. -/
theorem mapPage_total {phys virt flags : Nat} (halign : virt % 4096 = 0)
    (hused : Pmm.isFrameFree frames (phys / 4096) = false) :
    (mapPage img m frames phys virt flags = .panic outOfMemory ∧ (Pmm.allocFrame frames).2 = 0) ∨
      ∃ m' frames', mapPage img m frames phys virt flags = .ret (m', frames') := by
  unfold mapPage
  rw [if_neg (not_not.2 halign), hused, if_neg Bool.false_ne_true]
  split
  · unfold addTable
    by_cases ht : (Pmm.allocFrame frames).2 = 0
    · exact Or.inl ⟨by simp only [if_pos ht, panic_bind], ht⟩
    · exact Or.inr ⟨_, _, by simp only [if_neg ht, ret_bind, pure_eq]; rfl⟩
  · exact Or.inr ⟨_, _, rfl⟩

theorem mapPageInPdir_total {pdirPhys phys virt flags : Nat} :
    (mapPageInPdir img m frames pdirPhys phys virt flags = .panic outOfMemoryInPdir ∧
        (Pmm.allocFrame frames).2 = 0) ∨
      ∃ m' frames', mapPageInPdir img m frames pdirPhys phys virt flags = .ret (m', frames') := by
  unfold mapPageInPdir
  dsimp only
  split
  · unfold addTableInPdir
    by_cases ht : (Pmm.allocFrame frames).2 = 0
    · exact Or.inl ⟨by simp only [if_pos ht, panic_bind], ht⟩
    · exact Or.inr ⟨_, _, by simp only [if_neg ht, ret_bind, pure_eq]; rfl⟩
  · exact Or.inr ⟨_, _, rfl⟩

/-- `vmm_map_page_current` writes an entry of the table that was there.  When there was
none, it links a new table and then writes to frame 0: the directory entry is read from
the new table, which is still mapped and has just been zeroed. -/
theorem mapPageCurrent_cases {cr3 phys virt flags : Nat}
    (hrun : mapPageCurrent img cr3 m frames phys virt flags = .ret (m', frames'))
    (hvirt : pdiOf virt < 1024) (hdir : pageOf cr3 + 4 * pdiOf virt ≠ scratchEntry img)
    (hapart : ∀ frames' t, Pmm.allocFrame frames = (frames', t) → t ≠ 0 →
      Apart img (pageOf cr3) (pdiOf virt) t) :
    (m (pageOf cr3 + 4 * pdiOf virt) % 2 = 1 ∧ frames' = frames ∧
      m' = withEntry img m (pageOf (m (pageOf cr3 + 4 * pdiOf virt))) (ptiOf virt)
        (phys ||| flags)) ∨
    (m (pageOf cr3 + 4 * pdiOf virt) % 2 = 0 ∧ ∃ t, Pmm.allocFrame frames = (frames', t) ∧ t ≠ 0 ∧
      m' = withEntry img (withTable img m (pageOf cr3) (pdiOf virt) t) 0 (ptiOf virt)
        (phys ||| flags)) := by
  have hpage := pageOf_or_low cr3 (b := 3) (by norm_num)
  unfold mapPageCurrent at hrun
  split at hrun
  · cases hrun
  · simp only [getScratch_mapScratch hpage hdir] at hrun
    split at hrun
    · rename_i hp
      rcases hal : Pmm.allocFrame frames with ⟨frames₁, t⟩
      by_cases ht : t = 0
      · rw [addTableCurrent, hal] at hrun
        simp [ht] at hrun
      · have ha := hapart _ _ hal ht
        have hword : TableWord t 1024 (t + 4 * pdiOf virt) := tableWord_iff.2 ⟨_, hvirt, rfl⟩
        have hne : t + 4 * pdiOf virt ≠ scratchEntry img := fun h => ha.not_scratch (h ▸ hword)
        have hzero : withTable img m (pageOf cr3) (pdiOf virt) t (t + 4 * pdiOf virt) = 0 := by
          rw [withTable, if_neg hne, if_pos hword]
        rw [addTableCurrent_eq hal ht hpage ha] at hrun
        simp only [ret_bind, pure_eq,
          getScratch_mapScratch (pageOf_or_of_lt (b := 3) ha.aligned (by norm_num)) hne, hzero,
          mapScratch_mapScratch] at hrun
        rw [setScratch_mapScratch (a := 0) (by decide)] at hrun
        cases hrun
        exact Or.inr ⟨hp, t, rfl, ht, rfl⟩
    · rename_i hp
      simp only [ret_bind, pure_eq, getScratch_mapScratch hpage hdir, mapScratch_mapScratch]
        at hrun
      rw [setScratch_mapScratch (pageOf_or_of_lt (pageOf_dvd _) (by norm_num))] at hrun
      cases hrun
      exact Or.inl ⟨by omega, rfl, rfl⟩

theorem mapPageCurrent_total {cr3 phys virt flags : Nat} (halign : virt % 4096 = 0) :
    (mapPageCurrent img cr3 m frames phys virt flags = .panic outOfMemory ∧
        (Pmm.allocFrame frames).2 = 0) ∨
      ∃ m' frames', mapPageCurrent img cr3 m frames phys virt flags = .ret (m', frames') := by
  unfold mapPageCurrent
  rw [if_neg (not_not.2 halign)]
  dsimp only
  split
  · unfold addTableCurrent
    by_cases ht : (Pmm.allocFrame frames).2 = 0
    · exact Or.inl ⟨by simp only [if_pos ht, panic_bind], ht⟩
    · exact Or.inr ⟨_, _, by simp only [if_neg ht, ret_bind, pure_eq]; rfl⟩
  · exact Or.inr ⟨_, _, rfl⟩

/-- It returns when the table is there. -/
theorem mapPageCurrent_ne_panic {cr3 phys virt flags : Nat} {p : Panic} (halign : virt % 4096 = 0)
    (hdir : pageOf cr3 + 4 * pdiOf virt ≠ scratchEntry img)
    (hpres : pde m (pageOf cr3) virt % 2 = 1) :
    mapPageCurrent img cr3 m frames phys virt flags ≠ .panic p := by
  have hpde : ¬ m (pageOf cr3 + 4 * pdiOf virt) % 2 = 0 := by
    rw [pde] at hpres
    omega
  unfold mapPageCurrent
  rw [if_neg (not_not.2 halign)]
  simp only [getScratch_mapScratch (pageOf_or_low cr3 (show 3 < 4096 by norm_num)) hdir,
    if_neg hpde, ret_bind, pure_eq, ne_eq, reduceCtorEq, not_false_eq_true]

/-- `vmm_unmap_page`, in the same terms. -/
theorem unmapPage_eq (virt : Nat) : unmapPage img m virt =
    if m (img.pageDirectory + 4 * pdiOf virt) % 2 = 0 then m
    else withEntry img m (pageOf (m (img.pageDirectory + 4 * pdiOf virt))) (ptiOf virt) 0 := by
  unfold unmapPage
  split
  · rfl
  · rw [setScratch_mapScratch (pageOf_or_of_lt (pageOf_dvd _) (by norm_num))]

/-- `vmm_get_physical` answers the walk of the master directory, and it unmaps the
scratchpad. -/
theorem getPhysical_eq {virt : Nat} (hne : pteAddr m img.pageDirectory virt ≠ scratchEntry img) :
    (getPhysical img m virt).2 =
      match walk m img.pageDirectory virt with
      | some pte => pageOf pte ||| virt % 4096
      | none => 0 := by
  unfold getPhysical walk
  by_cases hp : m (img.pageDirectory + 4 * pdiOf virt) % 2 = 0
  · have hp' : ¬ pde m img.pageDirectory virt % 2 = 1 := by
      rw [pde]
      omega
    rw [if_pos hp, if_neg fun h => hp' h.1]
  · have hp' : pde m img.pageDirectory virt % 2 = 1 := by
      rw [pde]
      omega
    have hread : getScratch img (mapScratch img m
        (pageOf (m (img.pageDirectory + 4 * pdiOf virt)) ||| 3)) (ptiOf virt) =
        m (pteAddr m img.pageDirectory virt) :=
      getScratch_mapScratch (pageOf_or_of_lt (pageOf_dvd _) (by norm_num)) hne
    rw [if_neg hp]
    dsimp only
    rw [hread]
    by_cases hpte : m (pteAddr m img.pageDirectory virt) % 2 = 1
    · rw [if_pos hpte, if_pos ⟨hp', hpte⟩]
    · rw [if_neg hpte, if_neg fun h => hpte h.2]

end Functions

end BenmoshOS.Vmm
