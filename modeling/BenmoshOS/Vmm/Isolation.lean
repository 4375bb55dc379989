import BenmoshOS.Vmm.Spaces

/-!
# Address spaces: what holds in every run

`Reaches img map m frames dirs out` says that the memory `m` and the allocator state
`frames` are reached from `vmm_init` by any sequence of the functions of `vmm.c`, in
any order, while the rest of the kernel allocates and frees frames of its own and
writes to memory of its own.

* `isolation` — a call changes the walks of the page it maps, and no other.
* `kernel_half_shared` — all live directories agree below 8 MB, without user access.
* `map_unmap_query` — the algebra of `vmm_map_page`, `vmm_unmap_page` and
  `vmm_get_physical` on the master directory.
-/

namespace BenmoshOS.Vmm

open Heap (Mem store)
open Exec

variable {img : Image} {map : List Pmm.MemorymapEntry} {m m' : Mem} {frames frames' : Pmm.State}
  {dirs out : List Nat}

/-! ## `vmm_init` -/

theorem fillTable_eq (m : Mem) (table : Nat) (entry : Nat → Nat) :
    fillTable m table entry =
      fun x => if TableWord table 1024 x then entry ((x - table) / 4) else m x := by
  have hsteps : ∀ n, n ≤ 1024 →
      (List.range n).foldl (fun m i => store m (table + 4 * i) (entry i)) m =
        fun x => if TableWord table n x then entry ((x - table) / 4) else m x := by
    intro n
    induction n with
    | zero =>
        intro _
        funext x
        rw [if_neg fun h => by unfold TableWord at h; omega]
        rfl
    | succ n ih =>
        intro hn
        rw [List.range_succ, List.foldl_append, List.foldl_cons, List.foldl_nil, ih (by omega)]
        funext x
        rw [store, Function.update_apply]
        by_cases hx : x = table + 4 * n
        · rw [if_pos hx, if_pos (by unfold TableWord; omega)]
          congr 1
          omega
        · rw [if_neg hx]
          refine if_congr ?_ rfl rfl
          unfold TableWord
          omega
  exact hsteps 1024 (le_refl _)

/-- The memory after `vmm_init`, word by word. -/
theorem vmmInit_apply (img : Image) (m : Mem) (x : Nat) : vmmInit img m x =
    if x = img.pageDirectory + 4 then img.heapPageTable ||| 3
    else if x = img.pageDirectory then img.firstPageTable ||| 3
    else if TableWord img.heapPageTable 1024 x then
      ((x - img.heapPageTable) / 4 + 1024) * 4096 ||| 3
    else if TableWord img.firstPageTable 1024 x then (x - img.firstPageTable) / 4 * 4096 ||| 3
    else m x := by
  unfold vmmInit
  simp only [fillTable_eq, store, Function.update_apply]

/-- Words of directories other than the first two of the master directory. -/
theorem vmmInit_of_ne (hp : Paged img) {D i : Nat} (hD : 4096 ∣ D) (hf : D ≠ img.firstPageTable)
    (hh : D ≠ img.heapPageTable) (hi : i < 1024) (hm : D = img.pageDirectory → 2 ≤ i) :
    vmmInit img m (D + 4 * i) = m (D + 4 * i) := by
  have hpd : ∀ j, j < 2 → D + 4 * i ≠ img.pageDirectory + 4 * j := by
    intro j hj
    by_cases heq : D = img.pageDirectory
    · have := hm heq
      omega
    · exact word_ne hD img.pageDirectory_aligned heq hi (by omega)
  have h₀ := hpd 0 (by decide)
  have h₁ := hpd 1 (by decide)
  rw [Nat.mul_zero, Nat.add_zero] at h₀
  rw [Nat.mul_one] at h₁
  rw [vmmInit_apply, if_neg h₁, if_neg h₀,
    if_neg (not_tableWord hp.heapPageTable_aligned hD hh.symm hi),
    if_neg (not_tableWord img.firstPageTable_aligned hD hf.symm hi)]

theorem vmmInit_kernel (img : Image) (m : Mem) :
    vmmInit img m img.pageDirectory = img.firstPageTable ||| 3 ∧
      vmmInit img m (img.pageDirectory + 4) = img.heapPageTable ||| 3 := by
  rw [vmmInit_apply, vmmInit_apply, if_neg (by omega), if_pos rfl, if_pos rfl]
  exact ⟨rfl, rfl⟩

theorem vmmInit_identity (hp : Paged img) {i : Nat} (hi : 4096 * i + 4096 ≤ img.kernelEnd) :
    vmmInit img m (img.firstPageTable + 4 * i) = i * 4096 ||| 3 := by
  have hke := img.kernelEnd_le
  have hi' : i < 1024 := by omega
  have h₀ := word_ne (j := 0) img.firstPageTable_aligned img.pageDirectory_aligned hp.first_ne hi'
    (by decide)
  have h₁ := word_ne (j := 1) img.firstPageTable_aligned img.pageDirectory_aligned hp.first_ne hi'
    (by decide)
  rw [Nat.mul_zero, Nat.add_zero] at h₀
  rw [Nat.mul_one] at h₁
  rw [vmmInit_apply, if_neg h₁, if_neg h₀,
    if_neg (not_tableWord hp.heapPageTable_aligned img.firstPageTable_aligned
      hp.first_ne_heap.symm hi'),
    if_pos (tableWord_iff.2 ⟨i, hi', rfl⟩), Nat.add_sub_cancel_left,
    Nat.mul_div_cancel_left i (by decide)]

/-- Running `vmm_init` again restores the kernel half and touches nothing else. -/
theorem Spaces.reinit (hp : Paged img) (h : Spaces img m frames dirs out) :
    Spaces img (vmmInit img m) frames dirs out := by
  have hwords : ∀ D ∈ live img dirs, ∀ i, i < 1024 →
      vmmInit img m (D + 4 * i) = m (D + 4 * i) := by
    intro D hD i hi
    by_cases hm : D = img.pageDirectory ∧ i < 2
    · obtain ⟨rfl, h2⟩ := hm
      obtain ⟨k₀, k₁⟩ := h.kernel _ hD
      obtain ⟨v₀, v₁⟩ := vmmInit_kernel img m
      by_cases h₀ : i = 0
      · rw [h₀, Nat.mul_zero, Nat.add_zero, v₀, k₀]
      · rw [show i = 1 by omega, Nat.mul_one, v₁, k₁]
    · exact vmmInit_of_ne hp (h.live_aligned hD) (h.live_ne_first hp hD) (h.live_ne_heap hp hD) hi
        fun heq => Nat.le_of_not_lt fun hlt => hm ⟨heq, hlt⟩
  exact h.frame hwords fun i hi => (vmmInit_identity hp hi).trans (h.identity i hi).symm

/-- After the first `vmm_init` there is the master directory only, without tables. -/
theorem Spaces.init (hp : Paged img) (hown : Pmm.Owned img.kernelEnd frames out)
    (hzero : ∀ i, 2 ≤ i → i < 1024 → m (img.pageDirectory + 4 * i) = 0) :
    Spaces img (vmmInit img m) frames [] out := by
  have hnone : ∀ D ∈ live img [], ∀ i, ¬ HasTable (vmmInit img m) D i := by
    intro D hD i hi
    rw [List.mem_singleton.1 hD] at hi
    have hpres := hi.present
    rw [vmmInit_of_ne hp img.pageDirectory_aligned hp.first_ne.symm hp.heap_ne.symm hi.lt
      (fun _ => hi.two_le), hzero i hi.two_le hi.lt] at hpres
    exact absurd hpres (by decide)
  refine ⟨hown, List.nodup_nil, by simp, fun D hD i hi => absurd hi (hnone D hD i),
    fun D hD i hi => absurd hi (hnone D hD i), fun D hD => ?_, fun i hi => vmmInit_identity hp hi⟩
  rw [List.mem_singleton.1 hD]
  exact vmmInit_kernel img m

/-! ## Runs -/

/-- `x` is a word of a paging structure: of a table of the image, of a live directory or
of one of its tables. -/
def PagingWord (img : Image) (m : Mem) (dirs : List Nat) (x : Nat) : Prop :=
  TableWord img.firstPageTable 1024 x ∨ TableWord img.heapPageTable 1024 x ∨
    ∃ D ∈ live img dirs, TableWord D 1024 x ∨ ∃ t ∈ tablesOf m D, TableWord t 1024 x

/-- The states of a run, with the live directories and the frames that are out.  The
kernel runs from its image, so no call moves a page of it. -/
inductive Reaches (img : Image) (map : List Pmm.MemorymapEntry) :
    Mem → Pmm.State → List Nat → List Nat → Prop
  /-- `vmm_init`, on a directory in `.bss`. -/
  | init {m : Mem} {frames : Pmm.State} {out : List Nat} :
      Pmm.Reaches map img.kernelEnd frames out →
      (∀ i, 2 ≤ i → i < 1024 → m (img.pageDirectory + 4 * i) = 0) →
      Reaches img map (vmmInit img m) frames [] out
  | reinit {m : Mem} {frames : Pmm.State} {dirs out : List Nat} :
      Reaches img map m frames dirs out →
      Reaches img map (vmmInit img m) frames dirs out
  /-- `vmm_map_page` at an address behind the kernel image. -/
  | mapPage {m m' : Mem} {frames frames' : Pmm.State} {dirs out : List Nat}
      {phys virt flags : Nat} :
      Reaches img map m frames dirs out →
      virt < 2 ^ 32 → img.kernelEnd ≤ virt →
      mapPage img m frames phys virt flags = .ret (m', frames') →
      Reaches img map m' frames' dirs (taken m frames out img.pageDirectory virt)
  | unmapPage {m : Mem} {frames : Pmm.State} {dirs out : List Nat} {virt : Nat} :
      Reaches img map m frames dirs out →
      virt < 2 ^ 32 → img.kernelEnd ≤ virt →
      Reaches img map (unmapPage img m virt) frames dirs out
  | getPhysical {m : Mem} {frames : Pmm.State} {dirs out : List Nat} {virt : Nat} :
      Reaches img map m frames dirs out →
      Reaches img map (getPhysical img m virt).1 frames dirs out
  | create {m m' : Mem} {frames frames' : Pmm.State} {dirs out : List Nat} {a : Nat} :
      Reaches img map m frames dirs out →
      createAddressSpace img m frames = (m', frames', a) →
      Reaches img map m' frames' (if a = 0 then dirs else a :: dirs)
        (if a = 0 then out else a :: out)
  /-- `vmm_map_page_in_pdir` at an address behind the kernel image, in a live directory. -/
  | mapPageInPdir {m m' : Mem} {frames frames' : Pmm.State} {dirs out : List Nat}
      {pdirPhys phys virt flags : Nat} :
      Reaches img map m frames dirs out → pageOf pdirPhys ∈ live img dirs →
      virt < 2 ^ 32 → img.kernelEnd ≤ virt →
      mapPageInPdir img m frames pdirPhys phys virt flags = .ret (m', frames') →
      Reaches img map m' frames' dirs (taken m frames out (pageOf pdirPhys) virt)
  | destroy {m m' : Mem} {frames frames' : Pmm.State} {dirs out : List Nat} {D : Nat} :
      Reaches img map m frames dirs out → D ∈ dirs →
      destroyAddressSpace img m frames D = .ret (m', frames') →
      Reaches img map m' frames' (dirs.erase D) (released m out D)
  /-- Somebody else takes a frame. -/
  | alloc {m : Mem} {frames frames' : Pmm.State} {dirs out : List Nat} {a : Nat} :
      Reaches img map m frames dirs out →
      Pmm.allocFrame frames = (frames', a) →
      Reaches img map m frames' dirs (if a = 0 then out else a :: out)
  /-- Somebody else gives a frame back that is neither a directory nor a table. -/
  | free {m : Mem} {frames frames' : Pmm.State} {dirs out : List Nat} {a : Nat} :
      Reaches img map m frames dirs out → a ∈ out → a ∉ dirs →
      (∀ D ∈ live img dirs, a ∉ tablesOf m D) → Pmm.freeBlock frames a 1 = .ret frames' →
      Reaches img map m frames' dirs (out.erase a)
  /-- Somebody else writes to memory outside the paging structures. -/
  | write {m m' : Mem} {frames : Pmm.State} {dirs out : List Nat} :
      Reaches img map m frames dirs out →
      (∀ x, PagingWord img m dirs x → m' x = m x) → Reaches img map m' frames dirs out

/-- The call of `vmm_map_page` in a run. -/
theorem Spaces.mapPage (hp : Paged img) (h : Spaces img m frames dirs out) {phys virt flags : Nat}
    (hvirt : virt < 2 ^ 32) (himg : img.kernelEnd ≤ virt)
    (hrun : mapPage img m frames phys virt flags = .ret (m', frames')) :
    Spaces img m' frames' dirs (taken m frames out img.pageDirectory virt) ∧
      MapEffect img m m' dirs img.pageDirectory virt (phys ||| flags) := by
  have hD : img.pageDirectory ∈ live img dirs := List.mem_cons_self ..
  obtain ⟨-, -, hmap⟩ := mapPage_cases hrun (h.entry_ne_scratch hp hD (pdiOf_lt hvirt))
    fun _ _ hal ht => (h.apart hD hvirt hal ht).1
  exact h.mapped hp hD hvirt himg hmap

theorem Spaces.mapPageInPdir (hp : Paged img) (h : Spaces img m frames dirs out)
    {pdirPhys phys virt flags : Nat} (hD : pageOf pdirPhys ∈ live img dirs)
    (hvirt : virt < 2 ^ 32) (himg : img.kernelEnd ≤ virt)
    (hrun : mapPageInPdir img m frames pdirPhys phys virt flags = .ret (m', frames')) :
    Spaces img m' frames' dirs (taken m frames out (pageOf pdirPhys) virt) ∧
      MapEffect img m m' dirs (pageOf pdirPhys) virt (pageOf phys ||| flags) := by
  have hmap := mapPageInPdir_cases hrun (h.entry_ne_scratch hp hD (pdiOf_lt hvirt))
    fun _ _ hal ht => (h.apart hD hvirt hal ht).1
  exact h.mapped hp hD hvirt himg hmap

/-- The call of `vmm_create_address_space` in a run. -/
theorem Spaces.create_cases (h : Spaces img m frames dirs out) {a : Nat}
    (hrun : createAddressSpace img m frames = (m', frames', a)) :
    (a = 0 ∧ m' = m ∧ Pmm.Owned img.kernelEnd frames' out) ∨
    (a ≠ 0 ∧ m' = withDirectory img m a ∧ UserFrame img a ∧ a ∉ out ∧
      Pmm.Owned img.kernelEnd frames' (a :: out)) := by
  rcases hal : Pmm.allocFrame frames with ⟨frames₁, b⟩
  have hown := h.owned.alloc hal
  by_cases hb : b = 0
  · rw [createAddressSpace, hal] at hrun
    simp only [if_pos hb, Prod.mk.injEq] at hrun
    rw [if_pos hb] at hown
    obtain ⟨rfl, rfl, rfl⟩ := hrun
    exact Or.inl ⟨rfl, rfl, hown⟩
  · rw [if_neg hb] at hown
    have hu : UserFrame img b := userFrame_of_owned hown (List.mem_cons_self ..)
    rw [createAddressSpace_eq hal hu] at hrun
    simp only [Prod.mk.injEq] at hrun
    obtain ⟨rfl, rfl, rfl⟩ := hrun
    exact Or.inr ⟨hb, rfl, hu, (List.nodup_cons.1 hown.nodup).1, hown⟩

/-- A change of the frames that are out which keeps those of the paging structures. -/
theorem Spaces.reframe (h : Spaces img m frames dirs out) {out' : List Nat}
    (hown : Pmm.Owned img.kernelEnd frames' out')
    (hdir : ∀ D ∈ dirs, D ∈ out') (htab : ∀ D ∈ live img dirs, ∀ t ∈ tablesOf m D, t ∈ out') :
    Spaces img m frames' dirs out' :=
  ⟨hown, h.nodup, hdir,
    fun D hD i hi => ⟨htab D hD _ (mem_tablesOf.2 ⟨i, hi, rfl⟩), (h.table_out D hD i hi).2⟩,
    h.table_inj, h.kernel, h.identity⟩

/-- **The invariant holds in every state of a run.** -/
theorem Reaches.spaces (hp : Paged img) (h : Reaches img map m frames dirs out) :
    Spaces img m frames dirs out := by
  induction h with
  | init hpmm hzero => exact Spaces.init hp hpmm.owned hzero
  | reinit _ ih => exact ih.reinit hp
  | mapPage _ hvirt himg hrun ih => exact (ih.mapPage hp hvirt himg hrun).1
  | unmapPage _ hvirt himg ih => exact (ih.unmapped hp hvirt himg).1
  | getPhysical _ ih => exact (ih.queried hp _).1
  | create _ hrun ih =>
      rcases ih.create_cases hrun with ⟨rfl, rfl, hown⟩ | ⟨ha, rfl, -, hfresh, hown⟩
      · rw [if_pos rfl, if_pos rfl]
        exact ih.reframe hown ih.dir_out fun D hD t ht => by
          obtain ⟨i, hi, rfl⟩ := mem_tablesOf.1 ht
          exact (ih.table_out D hD i hi).1
      · rw [if_neg ha, if_neg ha]
        exact ih.created hp hfresh hown
  | mapPageInPdir _ hD hvirt himg hrun ih => exact (ih.mapPageInPdir hp hD hvirt himg hrun).1
  | destroy _ hD hrun ih =>
      obtain ⟨m₁, frames₁, hrun₁, hs, -, -⟩ := ih.destroyed hp hD
      rw [hrun] at hrun₁
      cases hrun₁
      exact hs
  | @alloc m frames frames' dirs out a _ hal ih =>
      have hsub : ∀ b ∈ out, b ∈ if a = 0 then out else a :: out := by
        intro b hb
        split
        · exact hb
        · exact List.mem_cons_of_mem _ hb
      exact ih.reframe (ih.owned.alloc hal) (fun D hD => hsub D (ih.dir_out D hD)) fun D hD t ht => by
        obtain ⟨i, hi, rfl⟩ := mem_tablesOf.1 ht
        exact hsub _ (ih.table_out D hD i hi).1
  | @free m frames frames' dirs out a _ ha hdir htab hrun ih =>
      obtain ⟨frames₁, hrun₁, hown⟩ := ih.owned.free ha
      rw [hrun] at hrun₁
      cases hrun₁
      refine ih.reframe hown (fun D hD => ?_) fun D hD t ht => ?_
      · exact (ih.owned.nodup.mem_erase_iff).2 ⟨fun heq => hdir (heq ▸ hD), ih.dir_out D hD⟩
      · obtain ⟨i, hi, heq⟩ := mem_tablesOf.1 ht
        refine (ih.owned.nodup.mem_erase_iff).2 ⟨fun hta => htab D hD (hta ▸ ht), ?_⟩
        rw [heq]
        exact (ih.table_out D hD i hi).1
  | write _ hw ih =>
      refine ih.frame (fun D hD i hi => ?_) fun i hi => ?_
      · exact hw _ (Or.inr (Or.inr ⟨D, hD, Or.inl (tableWord_iff.2 ⟨i, hi, rfl⟩)⟩))
      · have hke := img.kernelEnd_le
        exact hw _ (Or.inl (tableWord_iff.2 ⟨i, by omega, rfl⟩))

/-! ## Isolation -/

/-- The addresses of user pages. -/
def UserPage (virt : Nat) : Prop := 0x800000 ≤ virt ∧ virt < 2 ^ 32

/-- The page at `virt` is mapped to the frame at `phys` with these flags. -/
def MapsTo (m : Mem) (dir virt phys flags : Nat) : Prop :=
  ∃ pte, walk m dir virt = some pte ∧ pageOf pte = phys ∧ pte % 4096 = flags

theorem UserPage.not_scratch {virt : Nat} (h : UserPage virt) : virt / 4096 ≠ 0x3FF := by
  have := h.1
  omega

theorem UserPage.two_le {virt : Nat} (h : UserPage virt) : 2 ≤ pdiOf virt := by
  have := h.1
  unfold pdiOf
  omega

theorem mod_or_of_lt {a b : Nat} (ha : 4096 ∣ a) (hb : b < 4096) : (a ||| b) % 4096 = b := by
  rw [pageOf_or ha hb]
  obtain ⟨f, rfl⟩ := ha
  omega

/-- The scratchpad page is not mapped while its entry is zero. -/
theorem Spaces.walk_scratch (h : Spaces img m frames dirs out) {D virt : Nat}
    (hD : D ∈ live img dirs) (hpage : virt / 4096 = 0x3FF) (hzero : m (scratchEntry img) = 0) :
    walk m D virt = none := by
  have hpdi : pdiOf virt = 0 := by
    unfold pdiOf
    omega
  have hpti : ptiOf virt = 1023 := by
    unfold ptiOf
    omega
  have haddr : pteAddr m D virt = scratchEntry img := by
    have hpde : pde m D virt = img.firstPageTable ||| 3 := by
      rw [pde, hpdi]
      exact (h.kernel D hD).1
    rw [pteAddr, hpde, hpti, pageOf_or_three img.firstPageTable_aligned, scratchEntry]
  rw [walk, haddr, hzero, if_neg fun hc => absurd hc.2 (by decide)]

/-- A call that leaves the scratchpad unmapped and changes no walk at another page. -/
theorem Spaces.walk_everywhere (h : Spaces img m frames dirs out) {dirs' out' : List Nat}
    (h' : Spaces img m' frames' dirs' out') {D virt : Nat} (hD : D ∈ live img dirs)
    (hD' : D ∈ live img dirs') (hscratch : virt / 4096 = 0x3FF → m (scratchEntry img) = 0)
    (hzero : m' (scratchEntry img) = 0)
    (hwalk : virt / 4096 ≠ 0x3FF → walk m' D virt = walk m D virt) :
    walk m' D virt = walk m D virt := by
  by_cases hpage : virt / 4096 = 0x3FF
  · rw [h.walk_scratch hD hpage (hscratch hpage), h'.walk_scratch hD' hpage hzero]
  · exact hwalk hpage

/-- **Address spaces are isolated.**  In every state of a run, mapping a user page in a
directory installs that mapping and changes no other user page of any live directory;
creating and destroying a directory change no walk of the other ones; and a new
directory has no user page.  (The scratchpad page of the kernel half is unmapped by every
call, so it is only left out while `vmm_init`'s own mapping of it is in place.) -/
theorem isolation (hp : Paged img) (h : Reaches img map m frames dirs out) :
    (∀ A ∈ live img dirs, ∀ phys virt flags, UserPage virt → flags < 4096 → flags % 2 = 1 →
      (mapPageInPdir img m frames A phys virt flags = .panic outOfMemoryInPdir ∧
        (Pmm.allocFrame frames).2 = 0) ∨
      ∃ m' frames', mapPageInPdir img m frames A phys virt flags = .ret (m', frames') ∧
        MapsTo m' A virt (pageOf phys) flags ∧
        (∀ virt', UserPage virt' → virt' / 4096 ≠ virt / 4096 →
          walk m' A virt' = walk m A virt') ∧
        ∀ B ∈ live img dirs, B ≠ A → ∀ virt', UserPage virt' →
          walk m' B virt' = walk m B virt') ∧
    (∀ m' frames' a, createAddressSpace img m frames = (m', frames', a) →
      (∀ D ∈ live img dirs, ∀ virt, virt < 2 ^ 32 →
        (virt / 4096 = 0x3FF → m (scratchEntry img) = 0) → walk m' D virt = walk m D virt) ∧
      (a ≠ 0 → ∀ virt, UserPage virt → walk m' a virt = none)) ∧
    ∀ D ∈ dirs, ∃ m' frames', destroyAddressSpace img m frames D = .ret (m', frames') ∧
      ∀ D' ∈ live img (dirs.erase D), ∀ virt, virt < 2 ^ 32 →
        (virt / 4096 = 0x3FF → m (scratchEntry img) = 0) → walk m' D' virt = walk m D' virt := by
  have hs := h.spaces hp
  have hke := img.kernelEnd_le
  refine ⟨fun A hA phys virt flags hvirt hflags hodd => ?_, fun m' frames' a hrun => ?_,
    fun D hD => ?_⟩
  · refine mapPageInPdir_total.imp_right ?_
    rintro ⟨m', frames', hrun⟩
    refine ⟨m', frames', hrun, ?_⟩
    have hpage : pageOf A = A := pageOf_of_dvd (hs.live_aligned hA)
    have himg : img.kernelEnd ≤ virt := by
      have := hvirt.1
      omega
    obtain ⟨-, heff⟩ := hs.mapPageInPdir hp (hpage.symm ▸ hA) hvirt.2 himg hrun
    rw [hpage] at heff
    have hpte : (pageOf phys ||| flags) % 2 = 1 := by
      rw [pageOf_or (pageOf_dvd _) hflags, pageOf]
      omega
    refine ⟨⟨_, heff.mapped hvirt.not_scratch hpte, pageOf_or_of_lt (pageOf_dvd _) hflags,
      mod_or_of_lt (pageOf_dvd _) hflags⟩, fun virt' hvirt' hne => ?_, fun B hB hne virt' hvirt' => ?_⟩
    · exact heff.elsewhere A hA virt' ⟨hvirt'.2, hvirt'.not_scratch, Or.inl hne⟩
    · exact heff.elsewhere B hB virt' ⟨hvirt'.2, hvirt'.not_scratch, Or.inr ⟨hne, hvirt.two_le⟩⟩
  · rcases hs.create_cases hrun with ⟨rfl, rfl, -⟩ | ⟨-, rfl, hu, hfresh, hown⟩
    · exact ⟨fun _ _ _ _ _ => rfl, fun ha => absurd rfl ha⟩
    · obtain ⟨hwalk, hnone⟩ := hs.walk_created hp hu hfresh
      refine ⟨fun D hD virt hlt hscratch => ?_, fun _ virt hvirt => hnone virt hvirt.1 hvirt.2⟩
      have hD' : D ∈ live img (a :: dirs) := by
        rcases List.mem_cons.1 hD with rfl | hD
        · exact List.mem_cons_self ..
        · exact List.mem_cons_of_mem _ (List.mem_cons_of_mem _ hD)
      refine hs.walk_everywhere (hs.created hp hfresh hown) hD hD' hscratch ?_ (hwalk D hD virt hlt)
      rw [withDirectory, if_pos rfl]
  · obtain ⟨m', frames', hrun, hs', hzero, hwalk⟩ := hs.destroyed hp hD
    refine ⟨m', frames', hrun, fun D' hD' virt hlt hscratch => ?_⟩
    have hlive : D' ∈ live img dirs := by
      rcases List.mem_cons.1 hD' with rfl | hD'
      · exact List.mem_cons_self ..
      · exact List.mem_cons_of_mem _ (List.mem_of_mem_erase hD')
    exact hs.walk_everywhere hs' hlive hD' hscratch hzero (hwalk D' hD' virt hlt)

theorem paged_smallImage : Paged smallImage :=
  ⟨by decide, by decide, by decide, by decide, by decide⟩

/-- The memory after `vmm_init` on the small machine. -/
def smallMemory : Mem := vmmInit smallImage fun _ => 0

theorem reaches_smallMemory :
    Reaches smallImage oneFrame smallMemory (Pmm.pmmInit oneFrame 0x30000) [] [] :=
  Reaches.init (Pmm.Reaches.init (by decide)) fun _ _ _ => rfl

/-- A directory created on the small machine, with two frames left. -/
theorem created_small : ∃ m frames D,
    createAddressSpace smallImage smallMemory (Pmm.pmmInit Pmm.threeFrames 0x30000) =
        (m, frames, D) ∧ D ≠ 0 ∧ (Pmm.allocFrame frames).2 ≠ 0 ∧
      Reaches smallImage Pmm.threeFrames m frames [D] [D] := by
  rcases hcreate : createAddressSpace smallImage smallMemory
    (Pmm.pmmInit Pmm.threeFrames 0x30000) with ⟨m, frames, D⟩
  obtain ⟨hD, S, hS, hcard⟩ :=
    Pmm.available_threeFrames.alloc (k := 2) (by decide) (createAddressSpace_frames hcreate)
  have hreach := Reaches.create (Reaches.init (Pmm.Reaches.init (by decide)) fun _ _ _ => rfl)
    hcreate
  rw [if_neg hD] at hreach
  exact ⟨m, frames, D, rfl, hD, (hS.alloc (k := 1) (by omega) (Prod.eta _).symm).1, hreach⟩

/-- The first page of the created directory: its table takes a frame, and the master directory
does not see it. -/
theorem isolation_first : ∃ m frames D m' frames',
    createAddressSpace smallImage smallMemory (Pmm.pmmInit Pmm.threeFrames 0x30000) =
        (m, frames, D) ∧ D ≠ 0 ∧
      mapPageInPdir smallImage m frames D 0x1000 0x800000 7 = .ret (m', frames') ∧
      MapsTo m' D 0x800000 0x1000 7 ∧
      ∀ virt, UserPage virt → walk m' 0x20000 virt = walk m 0x20000 virt := by
  obtain ⟨m, frames, D, hcreate, hD, hleft, hreach⟩ := created_small
  have hne : (0x20000 : Nat) ≠ D := fun heq => by
    have himg := (userFrame_of_owned (hreach.spaces paged_smallImage).owned
      (List.mem_singleton_self D)).notImage
    exact absurd (heq ▸ himg) (by decide)
  obtain ⟨hmap, -⟩ := isolation paged_smallImage hreach
  rcases hmap D (by simp [live]) 0x1000 0x800000 7 ⟨by decide, by decide⟩ (by decide)
      (by decide) with ⟨-, hnone⟩ | ⟨m', frames', hrun, hmaps, -, hother⟩
  · exact absurd hnone hleft
  · exact ⟨m, frames, D, m', frames', hcreate, hD, hrun, hmaps,
      hother 0x20000 (List.mem_cons_self ..) hne⟩

/-- **The scratchpad page is not isolated.**  `vmm_init` maps it with the rest of the first four
megabytes; the first creation of a directory clears its entry, and with it the walk of the master
directory. -/
theorem scratchpad_not_isolated : ∃ m frames D,
    Reaches smallImage Pmm.threeFrames smallMemory (Pmm.pmmInit Pmm.threeFrames 0x30000) [] [] ∧
      createAddressSpace smallImage smallMemory (Pmm.pmmInit Pmm.threeFrames 0x30000) =
        (m, frames, D) ∧ smallImage.pageDirectory ∈ live smallImage [] ∧
      walk m smallImage.pageDirectory 0x3FF000 ≠
        walk smallMemory smallImage.pageDirectory 0x3FF000 := by
  obtain ⟨m, frames, D, hcreate, hD, -, hreach⟩ := created_small
  have hinit : Reaches smallImage Pmm.threeFrames smallMemory
      (Pmm.pmmInit Pmm.threeFrames 0x30000) [] [] :=
    Reaches.init (Pmm.Reaches.init (by decide)) fun _ _ _ => rfl
  have hafter : walk m smallImage.pageDirectory 0x3FF000 = none := by
    refine (hreach.spaces paged_smallImage).walk_scratch (List.mem_cons_self ..) (by decide) ?_
    rcases (hinit.spaces paged_smallImage).create_cases hcreate with ⟨hz, -⟩ | ⟨-, rfl, -⟩
    · exact absurd hz hD
    · exact if_pos rfl
  have hbefore : walk smallMemory smallImage.pageDirectory 0x3FF000 = some 0x3FF003 := by
    have hword : ∀ x, smallMemory x = _ := vmmInit_apply smallImage fun _ => 0
    have hpde : pde smallMemory smallImage.pageDirectory 0x3FF000 = 0x21003 := hword 0x20000
    have hpte : smallMemory (pteAddr smallMemory smallImage.pageDirectory 0x3FF000) = 0x3FF003 := by
      rw [pteAddr, hpde]
      exact hword 0x21FFC
    rw [walk, hpde, hpte]
    rfl
  refine ⟨m, frames, D, hinit, hcreate, List.mem_cons_self .., ?_⟩
  rw [hafter, hbefore]
  exact Option.some_ne_none _ |>.symm

/-! ## The kernel half -/

/-- **The kernel half is shared and closed to user code.**  In every state of a run and
every live directory the first two entries are present, without the user bit, and name the
two kernel tables; so all live directories translate the addresses below 8 MB alike, and
none of them to a page that user code may access. -/
theorem kernel_half_shared (hp : Paged img) (h : Reaches img map m frames dirs out) :
    (∀ D ∈ live img dirs,
      (m D % 2 = 1 ∧ m D / 4 % 2 = 0 ∧ pageOf (m D) = img.firstPageTable) ∧
      (m (D + 4) % 2 = 1 ∧ m (D + 4) / 4 % 2 = 0 ∧ pageOf (m (D + 4)) = img.heapPageTable)) ∧
    ∀ virt, virt < 0x800000 → ∀ D ∈ live img dirs,
      (∀ D' ∈ live img dirs, walk m D virt = walk m D' virt) ∧ ¬ UserAccessible m D virt := by
  have hs := h.spaces hp
  have hentry : ∀ {t : Nat}, 4096 ∣ t →
      (t ||| 3) % 2 = 1 ∧ (t ||| 3) / 4 % 2 = 0 ∧ pageOf (t ||| 3) = t := by
    intro t ht
    refine ⟨?_, ?_, pageOf_or_three ht⟩
    · rw [pageOf_or ht (by norm_num)]
      obtain ⟨f, rfl⟩ := ht
      omega
    · rw [pageOf_or ht (by norm_num)]
      obtain ⟨f, rfl⟩ := ht
      omega
  have hkernel : ∀ virt, virt < 0x800000 → ∀ D ∈ live img dirs, pde m D virt =
      if pdiOf virt = 0 then img.firstPageTable ||| 3 else img.heapPageTable ||| 3 := by
    intro virt hvirt D hD
    obtain ⟨h₀, h₁⟩ := hs.kernel D hD
    have hpdi : pdiOf virt = 0 ∨ pdiOf virt = 1 := by
      unfold pdiOf
      omega
    rcases hpdi with hpdi | hpdi
    · rw [pde, hpdi, if_pos rfl]
      exact h₀
    · rw [pde, hpdi, if_neg (by decide)]
      exact h₁
  refine ⟨fun D hD => ?_, fun virt hvirt D hD => ⟨fun D' hD' => ?_, fun huser => ?_⟩⟩
  · obtain ⟨h₀, h₁⟩ := hs.kernel D hD
    rw [h₀, h₁]
    exact ⟨hentry img.firstPageTable_aligned, hentry hp.heapPageTable_aligned⟩
  · unfold walk pteAddr
    rw [hkernel virt hvirt D hD, hkernel virt hvirt D' hD']
  · have hbit := huser.2.1
    rw [hkernel virt hvirt D hD] at hbit
    split at hbit
    · exact absurd hbit (by rw [(hentry img.firstPageTable_aligned).2.1]; decide)
    · exact absurd hbit (by rw [(hentry hp.heapPageTable_aligned).2.1]; decide)

/-- A created directory translates the kernel half as the master directory does. -/
theorem kernel_half_shared_first : ∃ m frames D,
    createAddressSpace smallImage smallMemory (Pmm.pmmInit Pmm.threeFrames 0x30000) =
        (m, frames, D) ∧ D ≠ 0 ∧ pageOf (m D) = 0x21000 ∧
      ∀ virt, virt < 0x800000 → walk m D virt = walk m 0x20000 virt ∧ ¬ UserAccessible m D virt := by
  obtain ⟨m, frames, D, hcreate, hD, -, hreach⟩ := created_small
  have hlive : D ∈ live smallImage [D] := by simp [live]
  obtain ⟨hentries, hwalk⟩ := kernel_half_shared paged_smallImage hreach
  refine ⟨m, frames, D, hcreate, hD, (hentries D hlive).1.2.2, fun virt hvirt => ?_⟩
  exact ⟨(hwalk virt hvirt D hlive).1 0x20000 (List.mem_cons_self ..), (hwalk virt hvirt D hlive).2⟩

/-! ## Mapping, unmapping and asking -/

theorem walk_page {D virt virt' : Nat} (h : virt / 4096 = virt' / 4096) :
    walk m D virt = walk m D virt' := by
  have h₁ : pdiOf virt = pdiOf virt' := by
    unfold pdiOf
    omega
  have h₂ : ptiOf virt = ptiOf virt' := by
    unfold ptiOf
    rw [h]
  unfold walk pteAddr pde
  rw [h₁, h₂]

/-- What `vmm_get_physical` answers, for every page but the scratchpad. -/
theorem Spaces.getPhysical_walk (hp : Paged img) (h : Spaces img m frames dirs out) {virt : Nat}
    (hvirt : virt < 2 ^ 32) (hne : virt / 4096 ≠ 0x3FF) :
    (getPhysical img m virt).2 =
      match walk m img.pageDirectory virt with
      | some pte => pageOf pte ||| virt % 4096
      | none => 0 := by
  by_cases hpres : pde m img.pageDirectory virt % 2 = 1
  · exact getPhysical_eq
      (h.pteAddr_ne_scratch hp (List.mem_cons_self ..) hvirt hne hpres)
  · rw [walk, if_neg fun hc => hpres hc.1, getPhysical, if_pos]
    rw [pde] at hpres
    omega

/-- **Map, unmap and query.**  In every state of a run: a page that has been mapped is
found, a page that has been unmapped is not, and no other page but the scratchpad is
answered differently. -/
theorem map_unmap_query (hp : Paged img) (h : Reaches img map m frames dirs out)
    {phys virt flags : Nat} (hphys : 4096 ∣ phys)
    (hused : Pmm.isFrameFree frames (phys / 4096) = false) (halign : 4096 ∣ virt)
    (hvirt : UserPage virt) (hflags : flags < 4096) (hodd : flags % 2 = 1) :
    ((mapPage img m frames phys virt flags = .panic outOfMemory ∧
        (Pmm.allocFrame frames).2 = 0) ∨
      ∃ m' frames', mapPage img m frames phys virt flags = .ret (m', frames') ∧
        (∀ o, o < 4096 → (getPhysical img m' (virt + o)).2 = phys + o) ∧
        ∀ w, w < 2 ^ 32 → w / 4096 ≠ virt / 4096 → w / 4096 ≠ 0x3FF →
          (getPhysical img m' w).2 = (getPhysical img m w).2) ∧
    (∀ o, o < 4096 → (getPhysical img (unmapPage img m virt) (virt + o)).2 = 0) ∧
    ∀ w, w < 2 ^ 32 → w / 4096 ≠ virt / 4096 → w / 4096 ≠ 0x3FF →
      (getPhysical img (unmapPage img m virt) w).2 = (getPhysical img m w).2 := by
  have hs := h.spaces hp
  have hmaster : img.pageDirectory ∈ live img dirs := List.mem_cons_self ..
  have hke := img.kernelEnd_le
  have hle := hvirt.1
  have himg : img.kernelEnd ≤ virt := by omega
  -- an address in the page of `virt`
  have hpage : ∀ o, o < 4096 → (virt + o) / 4096 = virt / 4096 ∧ (virt + o) % 4096 = o ∧
      virt + o < 2 ^ 32 := by
    intro o ho
    have hlt := hvirt.2
    obtain ⟨f, rfl⟩ := halign
    omega
  -- what a change of the walks at one page does to the answers
  have hanswer : ∀ {m' : Mem} {frames' : Pmm.State} {out' : List Nat} {v : Nat},
      Spaces img m' frames' dirs out' → Spaces.MapEffect img m m' dirs img.pageDirectory virt v →
      ∀ w, w < 2 ^ 32 → w / 4096 ≠ virt / 4096 → w / 4096 ≠ 0x3FF →
        (getPhysical img m' w).2 = (getPhysical img m w).2 := by
    intro m' frames' out' v hs' heff w hw hne hscratch
    rw [hs'.getPhysical_walk hp hw hscratch, hs.getPhysical_walk hp hw hscratch,
      heff.elsewhere _ hmaster w ⟨hw, hscratch, Or.inl hne⟩]
  refine ⟨(mapPage_total (Nat.mod_eq_zero_of_dvd halign) hused).imp_right ?_, fun o ho => ?_, ?_⟩
  · rintro ⟨m', frames', hrun⟩
    obtain ⟨hs', heff⟩ := hs.mapPage hp hvirt.2 himg hrun
    refine ⟨m', frames', hrun, fun o ho => ?_, hanswer hs' heff⟩
    obtain ⟨hsame, hoff, hlt⟩ := hpage o ho
    have hpte : (phys ||| flags) % 2 = 1 := by
      rw [pageOf_or hphys hflags]
      obtain ⟨f, rfl⟩ := hphys
      omega
    rw [hs'.getPhysical_walk hp hlt (hsame ▸ hvirt.not_scratch), walk_page hsame,
      heff.mapped hvirt.not_scratch hpte]
    dsimp only
    rw [hoff, pageOf_or_of_lt hphys hflags, pageOf_or hphys ho]
  · obtain ⟨hs', heff⟩ := hs.unmapped hp hvirt.2 himg
    obtain ⟨hsame, -, hlt⟩ := hpage o ho
    rw [hs'.getPhysical_walk hp hlt (hsame ▸ hvirt.not_scratch), walk_page hsame,
      heff.unmapped hvirt.not_scratch rfl]
  · obtain ⟨hs', heff⟩ := hs.unmapped hp hvirt.2 himg
    exact hanswer hs' heff

/-- Frame 1, which is never free, mapped at 8 MB of the small machine. -/
theorem map_unmap_query_first : ∃ m' frames', mapPage smallImage smallMemory
    (Pmm.pmmInit oneFrame 0x30000) 0x1000 0x800000 3 = .ret (m', frames') ∧
      (getPhysical smallImage m' 0x800123).2 = 0x1123 := by
  have hused : Pmm.isFrameFree (Pmm.pmmInit oneFrame 0x30000) (0x1000 / 4096) = false := by
    rw [Bool.eq_false_iff, ne_eq, Pmm.isFrameFree_iff (by decide), not_not]
    exact Pmm.used_pmmInit (by decide) (Or.inl (by decide)) (by decide)
  obtain ⟨hmap, -⟩ := map_unmap_query paged_smallImage reaches_smallMemory
    (show 4096 ∣ 0x1000 by decide) hused (show 4096 ∣ 0x800000 by decide) ⟨by decide, by decide⟩
    (show 3 < 4096 by decide) (by decide)
  rcases hmap with ⟨-, hnone⟩ | ⟨m', frames', hrun, hquery, -⟩
  · exact absurd hnone allocFrame_oneFrame
  · exact ⟨m', frames', hrun, hquery 0x123 (by decide)⟩

end BenmoshOS.Vmm
