import BenmoshOS.Vmm.Isolation

/-!
# Mapping a page in the active directory

`vmm_map_page_current` edits the directory `CR3` names, and the page-fault handler grows
the user stack with it.  When the page table is missing, the function links a new one and
then reads the directory entry through the scratchpad that still shows the new, zeroed
table: the entry lands in frame 0.

* `Active img D m frames` — a paging state with the active directory `D`.
* `map_current_iff` — the mapping asked for is installed, and nothing else changes, exactly
  when the page table was there and the scratchpad was unmapped.
-/

namespace BenmoshOS.Vmm

open Heap (Mem store)
open Exec

/-! ## The page-fault handler -/

def outOfStack : Panic := ⟨"Out of physical memory during stack expansion!", []⟩

/-- The message of a page fault that is not handled, its three `%s` filled in. -/
def fatalPageFault (faultingAddress eip errCode : Nat) : Panic :=
  ⟨"Fatal Page Fault at 0x%x (EIP: 0x%x, Error: 0x%x [" ++
    (if errCode % 2 = 1 then "PROTECTION " else "NOT-PRESENT ") ++
    (if errCode / 2 % 2 = 1 then "WRITE " else "READ ") ++
    (if errCode / 4 % 2 = 1 then "USER" else "KERNEL") ++ "])", [faultingAddress, eip, errCode]⟩

/-- `isr_handler` on vector 0x0E, for the values of `CR3` and `CR2`. -/
def pageFault (img : Image) (cr3 faultingAddress eip errCode : Nat) (m : Mem)
    (frames : Pmm.State) : Exec (Mem × Pmm.State) :=
  if errCode % 2 = 0 ∧ 0x900000 ≤ faultingAddress ∧ faultingAddress < 0xA00000 then
    let (frames, newFrame) := Pmm.allocFrame frames
    if newFrame = 0 then .panic outOfStack
    else mapPageCurrent img cr3 m frames newFrame (pageOf faultingAddress) 7
  else .panic (fatalPageFault faultingAddress eip errCode)

/-! ## Active directories -/

/-- The paging state of the directory at `D`: its first entry names `first_page_table`, so
that the scratchpad works, its tables are pages of their own, and neither the directory nor
`first_page_table` is a frame the allocator could hand out. -/
structure Active (img : Image) (D : Nat) (m : Mem) (frames : Pmm.State) : Prop where
  aligned : 4096 ∣ D
  ne_zero : D ≠ 0
  ne_first : D ≠ img.firstPageTable
  first_present : m D % 2 = 1
  first : pageOf (m D) = img.firstPageTable
  table_ne : ∀ i, i < 1024 → m (D + 4 * i) % 2 = 1 → tableOf m D i ≠ D
  table_inj : ∀ i, i < 1024 → m (D + 4 * i) % 2 = 1 → ∀ j, j < 1024 → m (D + 4 * j) % 2 = 1 →
    tableOf m D i = tableOf m D j → i = j
  directory_used : ∀ f, f < Pmm.totalFrames → ¬ Pmm.Used frames f → f * 4096 ≠ D
  first_used : ∀ f, f < Pmm.totalFrames → ¬ Pmm.Used frames f → f * 4096 ≠ img.firstPageTable

/-- What a call that maps the page at `virt` is to do: install the mapping, leave the other
pages alone, and write to the directory and its tables only. -/
structure Installs (D virt phys flags : Nat) (m m' : Mem) : Prop where
  mapped : MapsTo m' D virt phys flags
  others : ∀ w, w < 2 ^ 32 → w / 4096 ≠ virt / 4096 → walk m' D w = walk m D w
  writes : ∀ x, m' x ≠ m x → TableWord D 1024 x ∨
    ∃ i, i < 1024 ∧ m' (D + 4 * i) % 2 = 1 ∧ TableWord (tableOf m' D i) 1024 x

/-- The page table for `virt` is there, and the scratchpad page is not mapped. -/
def Ready (img : Image) (m : Mem) (D virt : Nat) : Prop :=
  pde m D virt % 2 = 1 ∧ m (scratchEntry img) % 2 = 0

variable {img : Image} {map : List Pmm.MemorymapEntry} {m m' : Mem} {frames frames' : Pmm.State}
  {dirs out : List Nat} {D virt : Nat}

/-- Every live directory of a run is in such a state. -/
theorem Spaces.active (hp : Paged img) (h : Spaces img m frames dirs out) (hD : D ∈ live img dirs)
    (hzero : D ≠ 0) : Active img D m frames := by
  have hke := img.kernelEnd_le
  obtain ⟨h₀, -⟩ := h.kernel D hD
  have hpres := h.kernel_present (i := 0) hp hD (by decide)
  have htf : Pmm.totalFrames = 1048576 := rfl
  -- the pages of the image are never free
  have himage : ∀ t, 4096 ∣ t → t + 4096 ≤ img.kernelEnd → ∀ f, f < Pmm.totalFrames →
      ¬ Pmm.Used frames f → f * 4096 ≠ t := by
    intro t ht hle f hf hu heq
    refine hu (h.owned.protected_used f ?_ hf)
    unfold Pmm.Protected
    omega
  refine ⟨h.live_aligned hD, hzero, h.live_ne_first hp hD, hpres, ?_, fun i hi hpi => ?_,
    fun i hi hpi j hj hpj heq => ?_, ?_, himage _ img.firstPageTable_aligned img.firstPageTable_le⟩
  · rw [h₀, pageOf_or_three img.firstPageTable_aligned]
  · exact (h.tableOf_apart hp hD hi hpi).2 D hD
  · exact (h.tableOf_inj hp hD hD hi hj hpi hpj heq).1
  · rcases List.mem_cons.1 hD with rfl | hD
    · exact himage _ img.pageDirectory_aligned img.pageDirectory_le
    · intro f _ hu heq
      obtain ⟨g, hg, -, -, hused, -⟩ := h.owned.frame D (h.dir_out D hD)
      have hfg : f = g := by omega
      exact hu (hfg ▸ hused)

namespace Active

/-- Words of the directory are not the entry of the scratchpad. -/
theorem entry_ne_scratch (h : Active img D m frames) {i : Nat} (hi : i < 1024) :
    D + 4 * i ≠ scratchEntry img :=
  word_ne h.aligned img.firstPageTable_aligned h.ne_first hi (by decide)

/-- A frame the allocator hands out is apart from the directory and the scratchpad. -/
theorem apart (h : Active img D m frames) (hvirt : virt < 2 ^ 32) {t : Nat}
    (hal : Pmm.allocFrame frames = (frames', t)) (ht : t ≠ 0) : Apart img D (pdiOf virt) t := by
  rcases Pmm.allocFrame_spec frames with ⟨hnone, -⟩ | ⟨f, -, hf, hu, hsome⟩
  · rw [hal] at hnone
    exact absurd (Prod.mk.inj hnone).2 ht
  · rw [hal] at hsome
    obtain ⟨-, rfl⟩ := Prod.mk.inj hsome
    have halign : 4096 ∣ f * 4096 := Dvd.intro_left f rfl
    exact ⟨halign,
      not_tableWord halign img.firstPageTable_aligned (h.first_used f hf hu) (by decide),
      not_tableWord halign h.aligned (h.directory_used f hf hu) (pdiOf_lt hvirt)⟩

/-- Taking a frame leaves the state an active one. -/
theorem alloc (h : Active img D m frames) {t : Nat} (hal : Pmm.allocFrame frames = (frames', t)) :
    Active img D m frames' := by
  have hmono : ∀ f, f < Pmm.totalFrames → ¬ Pmm.Used frames' f → ¬ Pmm.Used frames f := by
    intro f hf hu hused
    rcases Pmm.allocFrame_spec frames with ⟨hnone, -⟩ | ⟨g, -, hg, -, hsome⟩
    · rw [hal] at hnone
      rw [(Prod.mk.inj hnone).1] at hu
      exact hu hused
    · rw [hal] at hsome
      rw [(Prod.mk.inj hsome).1, Pmm.used_countDown, Pmm.used_markUsed hg] at hu
      exact hu (Or.inl hused)
  exact ⟨h.aligned, h.ne_zero, h.ne_first, h.first_present, h.first, h.table_ne, h.table_inj,
    fun f hf hu => h.directory_used f hf (hmono f hf hu),
    fun f hf hu => h.first_used f hf (hmono f hf hu)⟩

/-- Only the first entry names the first table. -/
theorem table_ne_first (h : Active img D m frames) {i : Nat} (h0 : i ≠ 0) (hi : i < 1024)
    (hpres : m (D + 4 * i) % 2 = 1) : tableOf m D i ≠ img.firstPageTable := by
  intro heq
  exact h0 (h.table_inj i hi hpres 0 (by decide) h.first_present (heq.trans h.first.symm))

/-- The entry of the scratchpad is that of its own page only. -/
theorem pteAddr_eq_scratch (h : Active img D m frames) {w : Nat} (hw : w < 2 ^ 32)
    (hpres : pde m D w % 2 = 1) : pteAddr m D w = scratchEntry img ↔ w / 4096 = 0x3FF := by
  have hi := pdiOf_lt hw
  constructor
  · intro heq
    by_cases h0 : pdiOf w = 0
    · have hpde : pde m D w = m D := by
        rw [pde, h0]
        rfl
      rw [pteAddr, hpde, h.first, scratchEntry] at heq
      unfold pdiOf at h0
      unfold ptiOf at heq
      omega
    · exact absurd heq (word_ne (pageOf_dvd _) img.firstPageTable_aligned
        (h.table_ne_first h0 hi hpres) (ptiOf_lt w) (by decide))
  · intro hpage
    have h0 : pdiOf w = 0 := by
      unfold pdiOf
      omega
    have hpti : ptiOf w = 1023 := by
      unfold ptiOf
      omega
    have hpde : pde m D w = m D := by
      rw [pde, h0]
      rfl
    rw [pteAddr, hpde, h.first, hpti, scratchEntry]

section Present

variable (h : Active img D m frames) (hvirt : UserPage virt) (hpres : pde m D virt % 2 = 1)

include h hvirt hpres

/-- Writing a table entry leaves the directory as it is. -/
theorem withEntry_directory {v i : Nat} (hi : i < 1024) :
    withEntry img m (tableOf m D (pdiOf virt)) (ptiOf virt) v (D + 4 * i) = m (D + 4 * i) := by
  have hne := h.table_ne _ (pdiOf_lt hvirt.2) hpres
  have hentry : D + 4 * i ≠ tableOf m D (pdiOf virt) + 4 * ptiOf virt :=
    word_ne h.aligned (pageOf_dvd _) hne.symm hi (ptiOf_lt virt)
  rw [withEntry_apply, if_neg (h.entry_ne_scratch hi), if_neg hentry]

theorem withEntry_pde {v w : Nat} (hw : w < 2 ^ 32) :
    pde (withEntry img m (tableOf m D (pdiOf virt)) (ptiOf virt) v) D w = pde m D w :=
  h.withEntry_directory hvirt hpres (pdiOf_lt hw)

/-- With the table there and the scratchpad unmapped, writing the table entry is all that
is asked for. -/
theorem installs_withEntry (hscratch : m (scratchEntry img) % 2 = 0) {phys flags : Nat}
    (hphys : 4096 ∣ phys) (hflags : flags < 4096) (hodd : flags % 2 = 1) :
    Installs D virt phys flags m
      (withEntry img m (tableOf m D (pdiOf virt)) (ptiOf virt) (phys ||| flags)) := by
  have hi := pdiOf_lt hvirt.2
  set m' := withEntry img m (tableOf m D (pdiOf virt)) (ptiOf virt) (phys ||| flags) with hm'
  have hpde : ∀ w, w < 2 ^ 32 → pde m' D w = pde m D w := fun w hw =>
    h.withEntry_pde hvirt hpres hw
  have hscratch' : m' (scratchEntry img) = 0 := by
    rw [hm', withEntry_apply, if_pos rfl]
  refine ⟨⟨phys ||| flags, ?_, pageOf_or_of_lt hphys hflags, mod_or_of_lt hphys hflags⟩,
    fun w hw hne => ?_, fun x hx => ?_⟩
  · have haddr : pteAddr m' D virt = pteAddr m D virt := by
      rw [pteAddr, hpde virt hvirt.2, pteAddr]
    have hentry : m' (pteAddr m D virt) = phys ||| flags := by
      rw [hm', withEntry_apply,
        if_neg fun heq => hvirt.not_scratch ((h.pteAddr_eq_scratch hvirt.2 hpres).1 heq)]
      exact if_pos rfl
    have hpte : (phys ||| flags) % 2 = 1 := by
      rw [pageOf_or hphys hflags]
      obtain ⟨f, rfl⟩ := hphys
      omega
    rw [walk, hpde virt hvirt.2, haddr, hentry, if_pos ⟨hpres, hpte⟩]
  · have haddr : pteAddr m' D w = pteAddr m D w := by
      rw [pteAddr, hpde w hw, pteAddr]
    by_cases hpw : pde m D w % 2 = 1
    · by_cases hsc : pteAddr m D w = scratchEntry img
      · -- the scratchpad page was not mapped and is not mapped
        rw [walk, walk, haddr, hsc, hscratch', if_neg fun hc => absurd hc.2 (by decide),
          if_neg fun hc => by omega]
      · refine walk_congr (hpde w hw) fun _ => ?_
        rw [hm', withEntry_apply, if_neg hsc, if_neg]
        intro heq
        by_cases htab : tableOf m D (pdiOf w) = tableOf m D (pdiOf virt)
        · have hpdi := h.table_inj _ (pdiOf_lt hw) hpw _ hi hpres htab
          have hpti : ptiOf w = ptiOf virt := by
            have : tableOf m D (pdiOf w) + 4 * ptiOf w =
              tableOf m D (pdiOf virt) + 4 * ptiOf virt := heq
            omega
          exact hne (Spaces.page_eq_of_indices hpdi hpti)
        · exact word_ne (pageOf_dvd _) (pageOf_dvd _) htab (ptiOf_lt w) (ptiOf_lt virt) heq
    · rw [walk, walk, hpde w hw, if_neg fun hc => hpw hc.1, if_neg fun hc => hpw hc.1]
  · have htable : ∀ i, i < 1024 → m' (D + 4 * i) = m (D + 4 * i) := fun i hi =>
      h.withEntry_directory hvirt hpres hi
    rw [hm', withEntry_apply] at hx
    by_cases hsc : x = scratchEntry img
    · have h₀ : m' D = m D := htable 0 (by decide)
      have htab : tableOf m' D 0 = img.firstPageTable := (congrArg pageOf h₀).trans h.first
      refine Or.inr ⟨0, by decide, ?_, ?_⟩
      · change m' D % 2 = 1
        rw [h₀]
        exact h.first_present
      · rw [htab, hsc]
        exact tableWord_iff.2 ⟨1023, by decide, rfl⟩
    · rw [if_neg hsc] at hx
      by_cases hent : x = tableOf m D (pdiOf virt) + 4 * ptiOf virt
      · refine Or.inr ⟨pdiOf virt, hi, ?_, ?_⟩
        · rw [htable _ hi]
          exact hpres
        · rw [tableOf, htable _ hi, hent]
          exact tableWord_iff.2 ⟨ptiOf virt, ptiOf_lt virt, rfl⟩
      · rw [if_neg hent] at hx
        exact absurd rfl hx

/-- A scratchpad page that was mapped is not mapped afterwards. -/
theorem unmaps_scratch (hscratch : m (scratchEntry img) % 2 = 1) {v : Nat} :
    walk (withEntry img m (tableOf m D (pdiOf virt)) (ptiOf virt) v) D 0x3FF000 ≠
      walk m D 0x3FF000 := by
  have hw : 0x3FF000 < 2 ^ 32 := by norm_num
  have hpde := h.withEntry_pde hvirt hpres (v := v) hw
  have hpw : pde m D 0x3FF000 % 2 = 1 := h.first_present
  have haddr := (h.pteAddr_eq_scratch hw hpw).2 (by norm_num)
  have haddr' : pteAddr (withEntry img m (tableOf m D (pdiOf virt)) (ptiOf virt) v) D 0x3FF000 =
      scratchEntry img := by
    rw [pteAddr, hpde]
    exact haddr
  have hbefore : walk m D 0x3FF000 = some (m (scratchEntry img)) := by
    rw [walk, haddr, if_pos ⟨hpw, hscratch⟩]
  rw [hbefore, walk, haddr', withEntry_apply, if_pos rfl, if_neg fun hc => absurd hc.2 (by decide)]
  exact (Option.some_ne_none _).symm

end Present

/-- With a new table the page is not mapped afterwards: the entry went to frame 0. -/
theorem walk_newTable (h : Active img D m frames) (hvirt : UserPage virt) {t v : Nat}
    (hapart : Apart img D (pdiOf virt) t) (ht : t ≠ 0) :
    walk (withEntry img (withTable img m D (pdiOf virt) t) 0 (ptiOf virt) v) D virt = none := by
  have hi := pdiOf_lt hvirt.2
  have hword : TableWord t 1024 (t + 4 * ptiOf virt) := tableWord_iff.2 ⟨_, ptiOf_lt virt, rfl⟩
  have hne : t + 4 * ptiOf virt ≠ scratchEntry img := fun heq => hapart.not_scratch (heq ▸ hword)
  have hpde : pde (withEntry img (withTable img m D (pdiOf virt) t) 0 (ptiOf virt) v) D virt =
      t ||| 7 := by
    rw [pde, withEntry_apply, if_neg (h.entry_ne_scratch hi),
      if_neg (word_ne h.aligned (Nat.dvd_zero _) h.ne_zero hi (ptiOf_lt virt)),
      withTable_entry hapart (h.entry_ne_scratch hi)]
  have haddr : pteAddr (withEntry img (withTable img m D (pdiOf virt) t) 0 (ptiOf virt) v) D virt =
      t + 4 * ptiOf virt := by
    rw [pteAddr, hpde, pageOf_or_of_lt hapart.aligned (by norm_num)]
  have hzero : withEntry img (withTable img m D (pdiOf virt) t) 0 (ptiOf virt) v
      (t + 4 * ptiOf virt) = 0 := by
    rw [withEntry_apply, if_neg hne,
      if_neg (word_ne hapart.aligned (Nat.dvd_zero _) ht (ptiOf_lt virt) (ptiOf_lt virt)),
      withTable, if_neg hne, if_pos hword]
  rw [walk, haddr, hzero, if_neg fun hc => absurd hc.2 (by decide)]

/-- The call of `vmm_map_page_current` for a page-aligned frame. -/
theorem installs_iff {cr3 phys flags : Nat} (h : Active img (pageOf cr3) m frames)
    (hphys : 4096 ∣ phys) (hvirt : UserPage virt) (hflags : flags < 4096) (hodd : flags % 2 = 1)
    (hrun : mapPageCurrent img cr3 m frames phys virt flags = .ret (m', frames')) :
    Installs (pageOf cr3) virt phys flags m m' ↔ Ready img m (pageOf cr3) virt := by
  have hi := pdiOf_lt hvirt.2
  rcases mapPageCurrent_cases hrun hi (h.entry_ne_scratch hi) (fun _ _ hal ht => h.apart hvirt.2 hal ht)
    with ⟨hpres, -, rfl⟩ | ⟨habs, t, hal, ht, rfl⟩
  · constructor
    · intro hinst
      refine ⟨hpres, ?_⟩
      by_contra hscratch
      exact h.unmaps_scratch hvirt hpres (by omega)
        (hinst.others 0x3FF000 (by norm_num) fun heq => hvirt.not_scratch heq.symm)
    · intro hready
      exact h.installs_withEntry hvirt hpres hready.2 hphys hflags hodd
  · constructor
    · intro hinst
      obtain ⟨pte, hwalk, -⟩ := hinst.mapped
      rw [h.walk_newTable hvirt (h.apart hvirt.2 hal ht) ht] at hwalk
      exact absurd hwalk.symm (Option.some_ne_none pte)
    · intro hready
      have hpde : m (pageOf cr3 + 4 * pdiOf virt) % 2 = 1 := hready.1
      omega

end Active

/-- **When `vmm_map_page_current` does what it is asked for.**  It installs the mapping,
leaves every other page as it was and writes to the directory and its tables only, if and
only if the page table for the address is there and the scratchpad page is not mapped; and
so does the page-fault handler when it grows the stack. -/
theorem map_current_iff {cr3 : Nat} (h : Active img (pageOf cr3) m frames) :
    (∀ phys virt flags m' frames', 4096 ∣ phys → UserPage virt → flags < 4096 → flags % 2 = 1 →
      mapPageCurrent img cr3 m frames phys virt flags = .ret (m', frames') →
      (Installs (pageOf cr3) virt phys flags m m' ↔ Ready img m (pageOf cr3) virt)) ∧
    ∀ addr eip errCode m' frames', 0x900000 ≤ addr → addr < 0xA00000 →
      pageFault img cr3 addr eip errCode m frames = .ret (m', frames') →
      (Installs (pageOf cr3) (pageOf addr) (Pmm.allocFrame frames).2 7 m m' ↔
        Ready img m (pageOf cr3) (pageOf addr)) := by
  refine ⟨fun phys virt flags m' frames' hphys hvirt hflags hodd hrun =>
    h.installs_iff hphys hvirt hflags hodd hrun, fun addr eip errCode m' frames' hle hlt hrun => ?_⟩
  unfold pageFault at hrun
  split at hrun
  · rcases hal : Pmm.allocFrame frames with ⟨frames₁, t⟩
    rw [hal] at hrun
    dsimp only at hrun
    split at hrun
    · cases hrun
    · rename_i ht
      have hvirt : UserPage (pageOf addr) := by
        unfold UserPage pageOf
        omega
      exact (h.alloc hal).installs_iff (h.apart hvirt.2 hal ht).aligned hvirt (by decide)
        (by decide) hrun
  · cases hrun

theorem pde_of_walk {w pte : Nat} (h : walk m D w = some pte) : pde m D w % 2 = 1 := by
  by_contra hpde
  rw [walk, if_neg fun hc => hpde hc.1] at h
  exact Option.some_ne_none pte h.symm

theorem active_smallMemory :
    Active smallImage (pageOf 0x20000) smallMemory (Pmm.pmmInit oneFrame 0x30000) :=
  (reaches_smallMemory.spaces paged_smallImage).active paged_smallImage (List.mem_cons_self ..)
    (by decide)

/-- The page at 8 MB of the small machine has been mapped in the master directory: there is
a table then, and the scratchpad is unmapped. -/
theorem ready_smallMachine : ∃ m frames, Active smallImage (pageOf 0x20000) m frames ∧
    Ready smallImage m (pageOf 0x20000) 0x900000 := by
  have hs := reaches_smallMemory.spaces paged_smallImage
  have hD : pageOf 0x20000 ∈ live smallImage [] := List.mem_cons_self ..
  have htotal := @mapPageInPdir_total smallImage smallMemory (Pmm.pmmInit oneFrame 0x30000)
    0x20000 0x1000 0x800000 7
  rcases htotal with ⟨-, hnone⟩ | ⟨m, frames, hrun⟩
  · exact absurd hnone allocFrame_oneFrame
  · have hvirt : (0x800000 : Nat) < 2 ^ 32 := by norm_num
    obtain ⟨hs', heff⟩ := hs.mapPageInPdir paged_smallImage hD hvirt (by decide) hrun
    have hwalk := heff.mapped (by decide) (by decide)
    have hmap := mapPageInPdir_cases hrun (hs.entry_ne_scratch paged_smallImage hD (by decide))
      fun _ _ hal ht => (hs.apart hD hvirt hal ht).1
    have hpres : pde m (pageOf 0x20000) 0x800000 % 2 = 1 := pde_of_walk hwalk
    exact ⟨m, frames, hs'.active paged_smallImage hD (by decide), hpres, by rw [hmap.scratch]⟩

/-- The stack page at 9 MB is mapped there as it should be. -/
theorem map_current_iff_stack : ∃ m frames m' frames',
    mapPageCurrent smallImage 0x20000 m frames 0x1000 0x900000 7 = .ret (m', frames') ∧
      Installs (pageOf 0x20000) 0x900000 0x1000 7 m m' := by
  obtain ⟨m, frames, hact, hready⟩ := ready_smallMachine
  have htotal := @mapPageCurrent_total smallImage m frames 0x20000 0x1000 0x900000 7 (by decide)
  rcases htotal with ⟨hpanic, -⟩ | ⟨m', frames', hrun⟩
  · exact absurd hpanic (mapPageCurrent_ne_panic (by decide)
      (hact.entry_ne_scratch (by decide)) hready.1)
  · exact ⟨m, frames, m', frames', hrun, ((map_current_iff hact).1 0x1000 0x900000 7 m' frames'
      (by decide) ⟨by decide, by decide⟩ (by decide) (by decide) hrun).2 hready⟩

/-- The first page of a new table: the entry is written to physical address 0, and the page
is not mapped. -/
theorem map_current_writes_frame_zero : ∃ m' frames',
    Active smallImage (pageOf 0x20000) smallMemory (Pmm.pmmInit oneFrame 0x30000) ∧
    mapPageCurrent smallImage 0x20000 smallMemory (Pmm.pmmInit oneFrame 0x30000) 0x1000 0x800000 7 =
      .ret (m', frames') ∧
    ¬ Installs (pageOf 0x20000) 0x800000 0x1000 7 smallMemory m' ∧
    walk m' (pageOf 0x20000) 0x800000 = none ∧ m' 0 = 0x1007 := by
  have hact := active_smallMemory
  have hvirt : UserPage 0x800000 := ⟨by decide, by decide⟩
  have htotal := @mapPageCurrent_total smallImage smallMemory (Pmm.pmmInit oneFrame 0x30000)
    0x20000 0x1000 0x800000 7 (by decide)
  rcases htotal with ⟨-, hnone⟩ | ⟨m', frames', hrun⟩
  · exact absurd hnone allocFrame_oneFrame
  · have habsent : smallMemory (pageOf 0x20000 + 4 * pdiOf 0x800000) = 0 :=
      vmmInit_of_ne paged_smallImage (by decide) (by decide) (by decide) (by decide) (by decide)
    rcases mapPageCurrent_cases hrun (by decide) (hact.entry_ne_scratch (by decide))
        (fun _ _ hal ht => hact.apart hvirt.2 hal ht) with ⟨hpres, -⟩ | ⟨-, t, hal, ht, rfl⟩
    · rw [habsent] at hpres
      exact absurd hpres (by decide)
    · have hwalk := hact.walk_newTable hvirt (hact.apart hvirt.2 hal ht) ht (v := 0x1000 ||| 7)
      refine ⟨_, _, hact, hrun, fun hinst => ?_, hwalk, ?_⟩
      · obtain ⟨pte, hsome, -⟩ := hinst.mapped
        rw [hwalk] at hsome
        exact absurd hsome.symm (Option.some_ne_none pte)
      · rw [withEntry_apply, if_neg (by decide), if_pos (by decide)]
        rfl

end BenmoshOS.Vmm
