import BenmoshOS.Vmm.Current

/-!
# The two directory mappers

`vmm_map_page` edits the master directory in place, `vmm_map_page_in_pdir` edits any
directory through the scratchpad.  On the master directory they take the same steps, but
the second one clears the low bits of the physical address before it adds the flags and the
first one does not: an address inside a frame hands its offset to the permission bits.

* `MappersAgree` — on these arguments both return the same memory and the same frames, and
  the flags of the installed entry are the ones asked for.
* `mappers_agree_iff` — they agree exactly when the offset of the physical address has no
  bit that is not a flag, or when there is no frame for a missing table and both panic.
-/

namespace BenmoshOS.Vmm

open Heap (Mem store)
open Exec

variable {img : Image} {m m' : Mem} {frames frames' : Pmm.State} {D virt phys flags : Nat}

/-- The page table for `virt` is missing and there is no frame for a new one. -/
def NoTable (m : Mem) (frames : Pmm.State) (D virt : Nat) : Prop :=
  pde m D virt % 2 = 0 ∧ (Pmm.allocFrame frames).2 = 0

/-- Both mappers leave the same memory and the same frames, and the low bits of the entry
they install are the flags. -/
structure MappersAgree (img : Image) (m : Mem) (frames : Pmm.State) (phys virt flags : Nat) :
    Prop where
  same : ∀ r, mapPage img m frames phys virt flags = .ret r ↔
    mapPageInPdir img m frames img.pageDirectory phys virt flags = .ret r
  permissions : ∀ m' frames', mapPage img m frames phys virt flags = .ret (m', frames') →
    m' (pteAddr m' img.pageDirectory virt) % 4096 = flags

/-! ## When the mappers return -/

theorem mapPage_returns_iff (halign : virt % 4096 = 0)
    (hused : Pmm.isFrameFree frames (phys / 4096) = false) :
    (∃ r, mapPage img m frames phys virt flags = .ret r) ↔
      ¬ NoTable m frames img.pageDirectory virt := by
  unfold mapPage NoTable pde
  rw [if_neg (not_not.2 halign), hused, if_neg Bool.false_ne_true]
  split
  · rename_i habsent
    unfold addTable
    by_cases ht : (Pmm.allocFrame frames).2 = 0
    · simp only [if_pos ht, panic_bind]
      exact iff_of_false (by simp) (not_not.2 ⟨habsent, ht⟩)
    · simp only [if_neg ht, ret_bind, pure_eq]
      exact iff_of_true ⟨_, rfl⟩ fun hno => ht hno.2
  · rename_i hpresent
    exact iff_of_true ⟨_, rfl⟩ fun hno => hpresent hno.1

theorem mapPageInPdir_returns_iff (hdir : pageOf D + 4 * pdiOf virt ≠ scratchEntry img) :
    (∃ r, mapPageInPdir img m frames D phys virt flags = .ret r) ↔
      ¬ NoTable m frames (pageOf D) virt := by
  have hpage := pageOf_or_of_lt (b := 3) (pageOf_dvd D) (by norm_num)
  unfold mapPageInPdir NoTable pde
  simp only [getScratch_mapScratch hpage hdir]
  split
  · rename_i habsent
    unfold addTableInPdir
    by_cases ht : (Pmm.allocFrame frames).2 = 0
    · simp only [if_pos ht, panic_bind]
      exact iff_of_false (by simp) (not_not.2 ⟨habsent, ht⟩)
    · simp only [if_neg ht, ret_bind, pure_eq]
      exact iff_of_true ⟨_, rfl⟩ fun hno => ht hno.2
  · rename_i hpresent
    exact iff_of_true ⟨_, rfl⟩ fun hno => hpresent hno.1

/-! ## What they install -/

/-- Two calls that map the same page with the same entry leave the same state. -/
theorem Mapped.unique {v : Nat} {m₁ m₂ : Mem} {frames₁ frames₂ : Pmm.State}
    (h₁ : Mapped img m frames D virt v m₁ frames₁) (h₂ : Mapped img m frames D virt v m₂ frames₂) :
    m₁ = m₂ ∧ frames₁ = frames₂ := by
  cases h₁ with
  | present hp =>
      cases h₂ with
      | present _ => exact ⟨rfl, rfl⟩
      | absent ha _ _ => omega
  | absent ha hal ht =>
      cases h₂ with
      | present hp => omega
      | absent _ hal' _ =>
          obtain ⟨rfl, rfl⟩ := Prod.mk.inj (hal.symm.trans hal')
          exact ⟨rfl, rfl⟩

/-- The entry that is installed for the page. -/
theorem Active.entry_mapped (h : Active img D m frames) (hvirt : UserPage virt) {v : Nat}
    (hmap : Mapped img m frames D virt v m' frames') : m' (pteAddr m' D virt) = v := by
  have hi := pdiOf_lt hvirt.2
  cases hmap with
  | present hpres =>
      have hpde := h.withEntry_pde hvirt hpres (v := v) hvirt.2
      have haddr : pteAddr (withEntry img m (tableOf m D (pdiOf virt)) (ptiOf virt) v) D virt =
          pteAddr m D virt := by
        rw [pteAddr, hpde, pteAddr]
      change withEntry img m (tableOf m D (pdiOf virt)) (ptiOf virt) v
        (pteAddr (withEntry img m (tableOf m D (pdiOf virt)) (ptiOf virt) v) D virt) = v
      rw [haddr, withEntry_apply,
        if_neg fun heq => hvirt.not_scratch ((h.pteAddr_eq_scratch hvirt.2 hpres).1 heq)]
      exact if_pos rfl
  | @absent frames₁ t habs hal ht =>
      have hapart := h.apart hvirt.2 hal ht
      have hword : TableWord t 1024 (t + 4 * ptiOf virt) := tableWord_iff.2 ⟨_, ptiOf_lt virt, rfl⟩
      have hne : D + 4 * pdiOf virt ≠ t + 4 * ptiOf virt := fun heq =>
        hapart.not_entry (heq ▸ hword)
      have hpde : pde (withEntry img (withTable img m D (pdiOf virt) t) t (ptiOf virt) v) D virt =
          t ||| 7 := by
        rw [pde, withEntry_apply, if_neg (h.entry_ne_scratch hi), if_neg hne,
          withTable_entry hapart (h.entry_ne_scratch hi)]
      have hscratch : t + 4 * ptiOf virt ≠ scratchEntry img := fun heq =>
        hapart.not_scratch (heq ▸ hword)
      rw [pteAddr, hpde, pageOf_or_of_lt hapart.aligned (by norm_num), withEntry_apply,
        if_neg hscratch, if_pos rfl]

/-- The offset of a physical address ends up in the flags. -/
theorem or_eq_pageOf_add (hflags : flags < 4096) :
    phys ||| flags = pageOf phys + (phys % 4096 ||| flags) := by
  have hlow : phys % 4096 ||| flags < 2 ^ 12 :=
    Nat.or_lt_two_pow (Nat.mod_lt _ (by norm_num)) hflags
  have hsplit : phys = pageOf phys ||| phys % 4096 := by
    rw [pageOf_or (pageOf_dvd phys) (Nat.mod_lt _ (by norm_num)), pageOf]
    omega
  conv_lhs => rw [hsplit, Nat.or_assoc]
  exact pageOf_or (pageOf_dvd phys) hlow

/-- **When the mappers agree.**  For every paging state and every page above the heap, they
leave the same directories and tables with exactly the given flags if and only if the offset
of the physical address has no bit outside the flags, or both panic because there is no frame
for a missing table. -/
theorem mappers_agree_iff (h : Active img img.pageDirectory m frames) (hvirt : UserPage virt)
    (halign : virt % 4096 = 0) (hflags : flags < 4096)
    (hused : Pmm.isFrameFree frames (phys / 4096) = false) :
    MappersAgree img m frames phys virt flags ↔
      phys % 4096 ||| flags = flags ∨ NoTable m frames img.pageDirectory virt := by
  have hdirs := pageOf_of_dvd img.pageDirectory_aligned
  have hi := pdiOf_lt hvirt.2
  have hret₁ : (∃ r, mapPage img m frames phys virt flags = .ret r) ↔
      ¬ NoTable m frames img.pageDirectory virt := mapPage_returns_iff halign hused
  have hret₂ : (∃ r, mapPageInPdir img m frames img.pageDirectory phys virt flags = .ret r) ↔
      ¬ NoTable m frames (pageOf img.pageDirectory) virt :=
    mapPageInPdir_returns_iff (by rw [hdirs]; exact h.entry_ne_scratch hi)
  rw [hdirs] at hret₂
  -- what each of them leaves behind
  have hmap₁ : ∀ {m' frames'}, mapPage img m frames phys virt flags = .ret (m', frames') →
      Mapped img m frames img.pageDirectory virt (phys ||| flags) m' frames' := fun hrun =>
    (mapPage_cases hrun (h.entry_ne_scratch hi) fun _ _ hal ht => h.apart hvirt.2 hal ht).2.2
  have hmap₂ : ∀ {m' frames'},
      mapPageInPdir img m frames img.pageDirectory phys virt flags = .ret (m', frames') →
      Mapped img m frames img.pageDirectory virt (pageOf phys ||| flags) m' frames' := by
    intro m' frames' hrun
    have := mapPageInPdir_cases hrun (by rw [hdirs]; exact h.entry_ne_scratch hi)
      (by rw [hdirs]; exact fun _ _ hal ht => h.apart hvirt.2 hal ht)
    rwa [hdirs] at this
  have hvalue₂ : pageOf phys ||| flags = pageOf phys + flags := pageOf_or (pageOf_dvd phys) hflags
  by_cases hno : NoTable m frames img.pageDirectory virt
  · refine iff_of_true ⟨fun r => iff_of_false ?_ ?_, fun m' frames' hrun => ?_⟩ (Or.inr hno)
    · exact fun hrun => hret₁.1 ⟨r, hrun⟩ hno
    · exact fun hrun => hret₂.1 ⟨r, hrun⟩ hno
    · exact absurd hno (hret₁.1 ⟨_, hrun⟩)
  · obtain ⟨⟨m₁, frames₁⟩, hrun₁⟩ := hret₁.2 hno
    obtain ⟨⟨m₂, frames₂⟩, hrun₂⟩ := hret₂.2 hno
    have hentry₁ := h.entry_mapped hvirt (hmap₁ hrun₁)
    have hentry₂ := h.entry_mapped hvirt (hmap₂ hrun₂)
    rw [or_iff_left hno]
    constructor
    · intro hagree
      obtain ⟨rfl, -⟩ := Prod.mk.inj (ret.inj (((hagree.same _).1 hrun₁).symm.trans hrun₂))
      have hsame : phys ||| flags = pageOf phys ||| flags := hentry₁.symm.trans hentry₂
      rw [or_eq_pageOf_add hflags, hvalue₂] at hsame
      omega
    · intro hlow
      have hsame : phys ||| flags = pageOf phys ||| flags := by
        rw [or_eq_pageOf_add hflags, hlow, hvalue₂]
      obtain ⟨rfl, rfl⟩ := (hsame ▸ hmap₁ hrun₁).unique (hmap₂ hrun₂)
      refine ⟨fun r => ?_, fun m' frames' hrun => ?_⟩
      · rw [hrun₁, hrun₂]
      · obtain ⟨rfl, -⟩ := Prod.mk.inj (ret.inj (hrun.symm.trans hrun₁))
        rw [hentry₁, hsame]
        exact mod_or_of_lt (pageOf_dvd phys) hflags

/-- Frame 1 of the small machine is never free. -/
theorem frame_one_used {phys : Nat} (h : phys / 4096 = 1) :
    Pmm.isFrameFree (Pmm.pmmInit oneFrame 0x30000) (phys / 4096) = false := by
  rw [h, Bool.eq_false_iff, ne_eq, Pmm.isFrameFree_iff (by decide), not_not]
  exact Pmm.used_pmmInit (by decide) (Or.inl (by decide)) (by decide)

/-- The mappers agree on the frame at 4 KB. -/
theorem mappers_agree_iff_aligned :
    MappersAgree smallImage smallMemory (Pmm.pmmInit oneFrame 0x30000) 0x1000 0x800000 3 :=
  (mappers_agree_iff active_smallMemory ⟨by decide, by decide⟩ (by decide) (by decide)
    (frame_one_used (by decide))).2 (Or.inl (by decide))

/-- They do not agree on an address four bytes into that frame: `vmm_map_page` makes the page
accessible to user code. -/
theorem mappers_differ_inside_frame :
    Active smallImage smallImage.pageDirectory smallMemory (Pmm.pmmInit oneFrame 0x30000) ∧
      Pmm.isFrameFree (Pmm.pmmInit oneFrame 0x30000) (0x1004 / 4096) = false ∧
      (∃ m' frames', mapPage smallImage smallMemory (Pmm.pmmInit oneFrame 0x30000) 0x1004 0x800000 3 =
        .ret (m', frames') ∧ m' (pteAddr m' smallImage.pageDirectory 0x800000) % 4096 = 7) ∧
      ¬ MappersAgree smallImage smallMemory (Pmm.pmmInit oneFrame 0x30000) 0x1004 0x800000 3 := by
  have hact : Active smallImage smallImage.pageDirectory smallMemory
      (Pmm.pmmInit oneFrame 0x30000) := active_smallMemory
  have hused : Pmm.isFrameFree (Pmm.pmmInit oneFrame 0x30000) (0x1004 / 4096) = false :=
    frame_one_used (by decide)
  have hvirt : UserPage 0x800000 := ⟨by decide, by decide⟩
  have hno : ¬ NoTable smallMemory (Pmm.pmmInit oneFrame 0x30000) smallImage.pageDirectory
      0x800000 := fun hno => allocFrame_oneFrame hno.2
  obtain ⟨⟨m', frames'⟩, hrun⟩ : ∃ r, mapPage smallImage smallMemory
      (Pmm.pmmInit oneFrame 0x30000) 0x1004 0x800000 3 = .ret r :=
    (mapPage_returns_iff (by decide) hused).2 hno
  have hmap := mapPage_cases hrun (hact.entry_ne_scratch (by decide))
    fun _ _ hal ht => hact.apart hvirt.2 hal ht
  have hlow : m' (pteAddr m' smallImage.pageDirectory 0x800000) % 4096 = 7 := by
    rw [hact.entry_mapped hvirt hmap.2.2]
    rfl
  refine ⟨hact, hused, ⟨m', frames', hrun, hlow⟩, fun hagree => ?_⟩
  exact absurd (hlow.symm.trans (hagree.permissions m' frames' hrun)) (by decide)

end BenmoshOS.Vmm
