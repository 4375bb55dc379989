import BenmoshOS.Vmm.Current
import BenmoshOS.Pmm.Init

/-!
# The frames of an address space

An address space takes a frame for its directory when it is created, a frame for the page
table of its stack at the first stack fault, and a frame for the stack page at every stack
fault.  `vmm_destroy_address_space` walks the directory and gives the tables and the
directory back; it does not look into the tables.

* `Life img D …` — the time between the creation of the directory `D` and its destruction,
  with the number of stack faults taken in it.
* `destroy_restores_iff` — the allocator is as before the creation exactly when there was no
  stack fault.
-/

namespace BenmoshOS.Vmm

open Heap (Mem store)
open Exec
open Pmm (threeFrames available_threeFrames)

variable {img : Image} {m m' m₁ m₂ : Mem} {frames frames' frames₁ frames₂ base : Pmm.State}
  {D n : Nat}

/-- What happens to an address space after it has been created as `m₁`, `frames₁`: it takes
stack faults, and memory outside its directory is written. -/
inductive Life (img : Image) (D : Nat) (m₁ : Mem) (frames₁ : Pmm.State) :
    Nat → Mem → Pmm.State → Prop
  | created : Life img D m₁ frames₁ 0 m₁ frames₁
  | fault {n addr eip errCode : Nat} {m m' : Mem} {frames frames' : Pmm.State} :
      Life img D m₁ frames₁ n m frames →
      pageFault img D addr eip errCode m frames = .ret (m', frames') →
      Life img D m₁ frames₁ (n + 1) m' frames'
  | write {n : Nat} {m m' : Mem} {frames : Pmm.State} : Life img D m₁ frames₁ n m frames →
      (∀ i, i < 1024 → m' (D + 4 * i) = m (D + 4 * i)) → Life img D m₁ frames₁ n m' frames

/-- The directory has one user table, `t`, for the four megabytes from 0x00800000 on. -/
structure StackTable (m : Mem) (D t : Nat) : Prop where
  entry : m (D + 4 * 2) = t ||| 7
  others : ∀ i, 3 ≤ i → i < 1024 → m (D + 4 * i) = 0

/-- The frames `own` of the address space after `n` stack faults, on top of `base`: only its
directory, or also a page table and at least one frame that is neither. -/
structure Holding (img : Image) (base : Pmm.State) (D n : Nat) (m : Mem) (frames : Pmm.State)
    (own : List Nat) : Prop where
  owned : Pmm.Owned img.kernelEnd frames own
  balanced : Pmm.Balanced base frames own
  directory : D ∈ own
  tables : (n = 0 ∧ own = [D] ∧ NoUserEntries m D) ∨
    (n ≠ 0 ∧ ∃ t ∈ own, t ≠ D ∧ StackTable m D t ∧ ∃ leaf ∈ own, leaf ≠ D ∧ leaf ≠ t)

namespace Holding

variable {own : List Nat}

theorem userFrame (h : Holding img base D n m frames own) : UserFrame img D :=
  userFrame_of_owned h.owned h.directory

/-- Memory outside the directory does not matter. -/
theorem write (h : Holding img base D n m frames own)
    (hm : ∀ i, i < 1024 → m' (D + 4 * i) = m (D + 4 * i)) :
    Holding img base D n m' frames own := by
  refine ⟨h.owned, h.balanced, h.directory, ?_⟩
  rcases h.tables with ⟨hn, hown, hnone⟩ | ⟨hn, t, ht, htD, hstack, hleaf⟩
  · exact Or.inl ⟨hn, hown, fun i h₁ h₂ => (hm i h₂).trans (hnone i h₁ h₂)⟩
  · refine Or.inr ⟨hn, t, ht, htD, ⟨?_, fun i h₁ h₂ => ?_⟩, hleaf⟩
    · exact (hm 2 (by decide)).trans hstack.entry
    · exact (hm i h₂).trans (hstack.others i h₁ h₂)

/-- A new frame is none of the frames of the address space. -/
theorem alloc (h : Holding img base D n m frames own) {a : Nat}
    (hal : Pmm.allocFrame frames = (frames', a)) (ha : a ≠ 0) :
    Pmm.Owned img.kernelEnd frames' (a :: own) ∧ Pmm.Balanced base frames' (a :: own) ∧
      a ∉ own := by
  have hown := h.owned.alloc hal
  have hbal := h.balanced.alloc hal
  rw [if_neg ha] at hown hbal
  exact ⟨hown, hbal, (List.nodup_cons.1 hown.nodup).1⟩

end Holding

/-- A frame that is neither a page of the image nor the directory is apart from it. -/
theorem UserFrame.apart {t i : Nat} (hD : UserFrame img D) (ht : UserFrame img t) (hne : t ≠ D)
    (hi : i < 1024) : Apart img D i t :=
  ⟨ht.aligned, fun hw => ht.ne_scratchEntry hw.1 rfl, not_tableWord ht.aligned hD.aligned hne hi⟩

/-- The creation of an address space. -/
theorem holding_created {out : List Nat} (h : Pmm.Owned img.kernelEnd frames out)
    (hcreate : createAddressSpace img m frames = (m₁, frames₁, D)) (hD : D ≠ 0) :
    Holding img frames D 0 m₁ frames₁ [D] := by
  have hal := createAddressSpace_frames hcreate
  have hempty : Pmm.Owned img.kernelEnd frames [] :=
    ⟨h.protected_used, by simp, List.nodup_nil⟩
  have hown := hempty.alloc hal
  have hbal := (Pmm.Balanced.refl frames).alloc hal
  rw [if_neg hD] at hown hbal
  refine ⟨hown, hbal, by simp, Or.inl ⟨rfl, rfl, ?_⟩⟩
  have hspec := createAddressSpace_spec (m := m) hempty
  rw [hcreate] at hspec
  rcases hspec with ⟨hz, -⟩ | ⟨-, -, -, hnone, -⟩
  · exact absurd hz hD
  · exact hnone

/-- The directory entry of a stack page. -/
theorem pdiOf_stack {addr : Nat} (hlo : 0x900000 ≤ addr) (hhi : addr < 0xA00000) :
    pdiOf (pageOf addr) = 2 := by
  unfold pdiOf pageOf
  omega

/-- The words of the directory after an entry of another page has been written. -/
theorem UserFrame.withEntry_directory {t i j v : Nat} (hD : UserFrame img D) (ht : 4096 ∣ t)
    (hne : t ≠ D) (hi : i < 1024) (hj : j < 1024) :
    withEntry img m t j v (D + 4 * i) = m (D + 4 * i) := by
  rw [withEntry_apply, if_neg (hD.ne_scratchEntry (by omega)),
    if_neg (word_ne hD.aligned ht hne.symm hi hj)]

/-- The words of the directory after a table has been linked. -/
theorem UserFrame.withTable_directory {t i j : Nat} (hD : UserFrame img D) (ht : 4096 ∣ t)
    (hne : t ≠ D) (hi : i < 1024) :
    withTable img m D j t (D + 4 * i) = if i = j then t ||| 7 else m (D + 4 * i) := by
  rw [withTable, if_neg (hD.ne_scratchEntry (by omega)),
    if_neg (not_tableWord ht hD.aligned hne hi)]
  exact if_congr (by omega) rfl rfl

/-- **A stack fault** takes a frame for the page, and at the first time one for the table. -/
theorem Holding.fault {own : List Nat} (h : Holding img base D n m frames own)
    {addr eip errCode : Nat}
    (hrun : pageFault img D addr eip errCode m frames = .ret (m', frames')) :
    ∃ own', Holding img base D (n + 1) m' frames' own' := by
  have hD := h.userFrame
  have hpage := pageOf_of_dvd hD.aligned
  unfold pageFault at hrun
  split at hrun
  swap
  · cases hrun
  rename_i hstack
  have hpdi := pdiOf_stack hstack.2.1 hstack.2.2
  rcases hal : Pmm.allocFrame frames with ⟨frames₁, leaf⟩
  rw [hal] at hrun
  dsimp only at hrun
  split at hrun
  · cases hrun
  rename_i hleaf
  obtain ⟨hown₁, hbal₁, hfresh₁⟩ := h.alloc hal hleaf
  have hleafD : leaf ≠ D := fun heq => hfresh₁ (heq ▸ h.directory)
  have hapart : ∀ frames' t, Pmm.allocFrame frames₁ = (frames', t) → t ≠ 0 →
      Apart img (pageOf D) (pdiOf (pageOf addr)) t := by
    intro frames' t hal' ht
    have hown := hown₁.alloc hal'
    rw [if_neg ht] at hown
    have hfresh := (List.nodup_cons.1 hown.nodup).1
    rw [hpage, hpdi]
    exact hD.apart (userFrame_of_owned hown List.mem_cons_self)
      (fun heq => hfresh (heq ▸ List.mem_cons_of_mem _ h.directory)) (by decide)
  have hentry : pageOf D + 4 * pdiOf (pageOf addr) ≠ scratchEntry img :=
    hD.ne_scratchEntry (by omega)
  have hcases := mapPageCurrent_cases hrun (by rw [hpdi]; decide) hentry hapart
  rw [hpage, hpdi] at hcases
  rcases hcases with ⟨hpres, rfl, rfl⟩ | ⟨habs, t, hal', ht, rfl⟩
  · -- the table is there
    rcases h.tables with ⟨-, -, hnone⟩ | ⟨-, t, ht, htD, hstack, -⟩
    · rw [hnone 2 (by decide) (by decide)] at hpres
      exact absurd hpres (by decide)
    have htu := userFrame_of_owned h.owned ht
    have hsame : ∀ i, i < 1024 → withEntry img m (pageOf (m (D + 4 * 2))) (ptiOf (pageOf addr))
        (leaf ||| 7) (D + 4 * i) = m (D + 4 * i) := by
      intro i hi
      rw [hstack.entry, pageOf_or_of_lt htu.aligned (by norm_num)]
      exact hD.withEntry_directory htu.aligned htD hi (ptiOf_lt _)
    refine ⟨leaf :: own, hown₁, hbal₁, List.mem_cons_of_mem _ h.directory,
      Or.inr ⟨Nat.succ_ne_zero n, t, List.mem_cons_of_mem _ ht, htD, ⟨?_, fun i h₁ h₂ => ?_⟩,
        leaf, List.mem_cons_self, hleafD, fun heq => hfresh₁ (heq ▸ ht)⟩⟩
    · exact (hsame 2 (by decide)).trans hstack.entry
    · exact (hsame i h₂).trans (hstack.others i h₁ h₂)
  · -- there is no table yet
    rcases h.tables with ⟨-, -, hnone⟩ | ⟨-, t', ht', -, hstack, -⟩
    swap
    · have htu := userFrame_of_owned h.owned ht'
      rw [hstack.entry, pageOf_or htu.aligned (by norm_num)] at habs
      obtain ⟨f, rfl⟩ := htu.aligned
      omega
    have hown := hown₁.alloc hal'
    have hbal := hbal₁.alloc hal'
    rw [if_neg ht] at hown hbal
    have hfresh := (List.nodup_cons.1 hown.nodup).1
    have htD : t ≠ D := fun heq => hfresh (heq ▸ List.mem_cons_of_mem _ h.directory)
    have htu := userFrame_of_owned hown List.mem_cons_self
    have hwords : ∀ i, i < 1024 → withEntry img (withTable img m D 2 t) 0 (ptiOf (pageOf addr))
        (leaf ||| 7) (D + 4 * i) = if i = 2 then t ||| 7 else m (D + 4 * i) := by
      intro i hi
      rw [hD.withEntry_directory (Nat.dvd_zero _) hD.ne_zero.symm hi (ptiOf_lt _),
        hD.withTable_directory htu.aligned htD hi]
    refine ⟨t :: leaf :: own, hown, hbal,
      List.mem_cons_of_mem _ (List.mem_cons_of_mem _ h.directory),
      Or.inr ⟨Nat.succ_ne_zero n, t, List.mem_cons_self, htD, ⟨?_, fun i h₁ h₂ => ?_⟩, leaf,
        List.mem_cons_of_mem _ List.mem_cons_self, hleafD, ?_⟩⟩
    · rw [hwords 2 (by decide), if_pos rfl]
    · rw [hwords i h₂, if_neg (by omega), hnone i (by omega) h₂]
    · exact fun heq => hfresh (heq ▸ List.mem_cons_self)

/-- What an address space holds at any time of its life. -/
theorem Life.holding (h : Life img D m₁ frames₁ n m frames) {own : List Nat}
    (h₁ : Holding img base D 0 m₁ frames₁ own) : ∃ own', Holding img base D n m frames own' := by
  induction h with
  | created => exact ⟨own, h₁⟩
  | fault _ hrun ih =>
      obtain ⟨own', hhold⟩ := ih
      exact hhold.fault hrun
  | write _ hm ih =>
      obtain ⟨own', hhold⟩ := ih
      exact ⟨own', hhold.write hm⟩

/-- Without a stack fault, the destruction gives back what the creation has taken. -/
theorem Holding.destroy_restores {own : List Nat} (h : Holding img base D 0 m frames own)
    (hcount : base.freeFrameCount < 2 ^ 32) :
    ∃ m' frames', destroyAddressSpace img m frames D = .ret (m', frames') ∧
      frames'.bitmap = base.bitmap ∧ frames'.freeFrameCount = base.freeFrameCount := by
  rcases h.tables with ⟨-, rfl, hnone⟩ | ⟨hn, -⟩
  · obtain ⟨m', frames', hrun, hfree, -⟩ := destroyAddressSpace_spec h.owned h.directory hnone
    obtain ⟨f, hf, -, hlt, -⟩ := h.owned.frame D h.directory
    have hbal := h.balanced.free h.owned.nodup h.directory ⟨f, hf, hlt⟩ hfree
    rw [List.erase_cons_head] at hbal
    exact ⟨m', frames', hrun, hbal.restored hcount⟩
  · exact absurd rfl hn

/-- After a stack fault, the destruction leaves a frame in use that was free before the
creation. -/
theorem Holding.destroy_leaks {own : List Nat} (h : Holding img base D n m frames own)
    (hn : n ≠ 0) : ∃ m' frames', destroyAddressSpace img m frames D = .ret (m', frames') ∧
      ∃ f, Pmm.Used frames' f ∧ ¬ Pmm.Used base f := by
  rcases h.tables with ⟨hz, -⟩ | ⟨-, t, ht, htD, hstack, leaf, hleaf, hleafD, hleaft⟩
  · exact absurd hz hn
  have hD := h.userFrame
  have htu := userFrame_of_owned h.owned ht
  set m₁ := mapScratch img m (D ||| 3) with hm₁
  have hwords : ∀ i, m₁ (D + 4 * i) = m (D + 4 * i) := fun i =>
    mapScratch_of_ne (hD.ne_scratchEntry (by omega))
  -- the only table the walk finds is that of the stack
  have htab : ∀ i ∈ List.range' 2 1022, m₁ (D + 4 * i) % 2 = 1 → i = 2 ∧ tableOf m₁ D i = t := by
    intro i hi hpres
    obtain ⟨j, hj, rfl⟩ := List.mem_range'.1 hi
    have hi2 : 2 + 1 * j = 2 := by
      by_contra hne
      rw [hwords, hstack.others _ (by omega) (by omega)] at hpres
      exact absurd hpres (by decide)
    rw [hi2, tableOf, hwords, hstack.entry]
    exact ⟨rfl, pageOf_or_of_lt htu.aligned (by norm_num)⟩
  obtain ⟨frames₁, out₁, htables, hown₁, hiff⟩ := Spaces.freeTables_spec (m := m₁) (D := D)
    (by rw [hm₁, mapScratch_self, pageOf_or_three hD.aligned])
    (List.nodup_range' (s := 2) (n := 1022)) h.owned
    (fun i hi hpres => by
      rw [(htab i hi hpres).2]
      exact ht)
    (fun i hi j hj hpi hpj _ => (htab i hi hpi).1.trans (htab j hj hpj).1.symm)
  have hkeep : ∀ a, a ∈ own → a ≠ t → a ∈ out₁ := fun a ha hat =>
    (hiff a).2 ⟨ha, fun i hi hpres => by rwa [(htab i hi hpres).2]⟩
  obtain ⟨frames', hfree, hown'⟩ := hown₁.free (hkeep D h.directory htD.symm)
  refine ⟨mapScratch img m₁ 0, frames', ?_, ?_⟩
  · rw [destroyAddressSpace, if_neg hD.ne_zero]
    change (freeTables img m₁ (List.range' 2 1022) frames >>= _) = _
    rw [htables, ret_bind]
    simp only [hfree, ret_bind, pure_eq]
    rfl
  · have hmem : leaf ∈ out₁.erase D :=
      (hown₁.nodup.mem_erase_iff).2 ⟨hleafD, hkeep leaf hleaf hleaft⟩
    obtain ⟨f, rfl, -, -, hused, -⟩ := hown'.frame leaf hmem
    exact ⟨f, hused, h.balanced.fresh f hleaf⟩

/-- **When an address space gives back everything it took.**  Whatever stack faults it has
taken since its creation, destroying it returns; and the bitmap and the counter of the frame
allocator are those from before the creation if and only if there was no stack fault. -/
theorem destroy_restores_iff {out : List Nat} (h : Pmm.Owned img.kernelEnd frames out)
    (hcount : frames.freeFrameCount < 2 ^ 32)
    (hcreate : createAddressSpace img m frames = (m₁, frames₁, D)) (hD : D ≠ 0)
    (hlife : Life img D m₁ frames₁ n m₂ frames₂) :
    ∃ m₃ frames₃, destroyAddressSpace img m₂ frames₂ D = .ret (m₃, frames₃) ∧
      (frames₃.bitmap = frames.bitmap ∧ frames₃.freeFrameCount = frames.freeFrameCount ↔ n = 0) := by
  obtain ⟨own, hhold⟩ := hlife.holding (holding_created h hcreate hD)
  by_cases hn : n = 0
  · subst hn
    obtain ⟨m₃, frames₃, hrun, hsame⟩ := hhold.destroy_restores hcount
    exact ⟨m₃, frames₃, hrun, iff_of_true hsame rfl⟩
  · obtain ⟨m₃, frames₃, hrun, f, hused, hfree⟩ := hhold.destroy_leaks hn
    refine ⟨m₃, frames₃, hrun, iff_of_false (fun hsame => hfree ?_) hn⟩
    rwa [Pmm.Used, ← hsame.1]

/-- The one frame of the small machine makes a directory and is given back. -/
theorem destroy_restores_iff_oneFrame : ∃ m₁ frames₁ D m₃ frames₃,
    createAddressSpace smallImage smallMemory (Pmm.pmmInit oneFrame 0x30000) = (m₁, frames₁, D) ∧
      destroyAddressSpace smallImage m₁ frames₁ D = .ret (m₃, frames₃) ∧
      frames₃.bitmap = (Pmm.pmmInit oneFrame 0x30000).bitmap ∧
      frames₃.freeFrameCount = (Pmm.pmmInit oneFrame 0x30000).freeFrameCount := by
  have hreach : Pmm.Reaches oneFrame smallImage.kernelEnd (Pmm.pmmInit oneFrame 0x30000) [] :=
    .init (by decide)
  rcases hcreate : createAddressSpace smallImage smallMemory (Pmm.pmmInit oneFrame 0x30000) with
    ⟨m₁, frames₁, D⟩
  have hD : D ≠ 0 := by
    have := allocFrame_oneFrame
    rwa [createAddressSpace_frames hcreate] at this
  obtain ⟨m₃, frames₃, hrun, hiff⟩ :=
    destroy_restores_iff hreach.owned hreach.count_lt hcreate hD .created
  exact ⟨m₁, frames₁, D, m₃, frames₃, rfl, hrun, hiff.2 rfl⟩

/-- **A leaked stack page.**  On a machine with three free frames an address space is created,
takes one stack fault and is destroyed: a frame that was free is still in use. -/
theorem stack_page_leaks : ∃ m₁ frames₁ D m₂ frames₂ m₃ frames₃,
    createAddressSpace smallImage smallMemory (Pmm.pmmInit threeFrames 0x30000) =
        (m₁, frames₁, D) ∧ D ≠ 0 ∧
      pageFault smallImage D 0x9FFFF0 0x800000 6 m₁ frames₁ = .ret (m₂, frames₂) ∧
      destroyAddressSpace smallImage m₂ frames₂ D = .ret (m₃, frames₃) ∧
      frames₃.bitmap ≠ (Pmm.pmmInit threeFrames 0x30000).bitmap := by
  have hreach : Pmm.Reaches threeFrames smallImage.kernelEnd (Pmm.pmmInit threeFrames 0x30000) [] :=
    .init (by decide)
  -- the directory, the stack page and the page table each take a frame
  rcases hcreate : createAddressSpace smallImage smallMemory (Pmm.pmmInit threeFrames 0x30000) with
    ⟨m₁, frames₁, D⟩
  obtain ⟨hD, S₁, hS₁, hcard₁⟩ :=
    available_threeFrames.alloc (k := 2) (by decide) (createAddressSpace_frames hcreate)
  rcases hleaf : Pmm.allocFrame frames₁ with ⟨frames', leaf⟩
  obtain ⟨hleaf0, S₂, hS₂, hcard₂⟩ := hS₁.alloc (k := 1) (by omega) hleaf
  have htable := (hS₂.alloc (k := 0) (by omega) (Prod.mk.eta (p := Pmm.allocFrame frames')).symm).1
  have hfault : ∃ m₂ frames₂,
      pageFault smallImage D 0x9FFFF0 0x800000 6 m₁ frames₁ = .ret (m₂, frames₂) := by
    unfold pageFault
    rw [if_pos (by decide), hleaf]
    simp only [if_neg hleaf0]
    have htotal : (mapPageCurrent smallImage D m₁ frames' leaf (pageOf 0x9FFFF0) 7 =
        .panic outOfMemory ∧ (Pmm.allocFrame frames').2 = 0) ∨
        ∃ m' frames'', mapPageCurrent smallImage D m₁ frames' leaf (pageOf 0x9FFFF0) 7 =
          .ret (m', frames'') := mapPageCurrent_total (by decide)
    rcases htotal with ⟨-, hnone⟩ | hrun
    · exact absurd hnone htable
    · exact hrun
  obtain ⟨m₂, frames₂, hfault⟩ := hfault
  obtain ⟨own, hhold⟩ := (holding_created hreach.owned hcreate hD).fault hfault
  obtain ⟨m₃, frames₃, hdestroy, f, hused, hfree⟩ := hhold.destroy_leaks (by decide)
  refine ⟨m₁, frames₁, D, m₂, frames₂, m₃, frames₃, rfl, hD, hfault, hdestroy, fun hsame => ?_⟩
  rw [Pmm.Used, hsame] at hused
  exact hfree hused

end BenmoshOS.Vmm
