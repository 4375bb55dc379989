import BenmoshOS.Vmm.Paging

/-!
# Address spaces: the frames of directories and page tables

`Spaces img m frames dirs out` is what holds of the paging structures between two
calls: `dirs` are the directories that have been created and not destroyed, `out` the
frames the allocator has handed out.  Every page table of a live directory is a frame
of its own, the first two entries of every live directory name the two kernel tables,
and the pages of the kernel image are mapped one to one.

* `Spaces.withEntry`, `Spaces.withTable` — writing a table entry and linking a new
  table keep the invariant, and which walks they change.
* `Spaces.mapped`, `Spaces.created`, `Spaces.destroyed` — the calls.
-/

namespace BenmoshOS.Vmm

open Heap (Mem store)
open Exec

/-- The three tables of the image are pages of their own, as their `aligned` attribute
asks for. -/
structure Paged (img : Image) : Prop where
  heapPageTable_aligned : 4096 ∣ img.heapPageTable
  heapPageTable_le : img.heapPageTable + 4096 ≤ img.kernelEnd
  first_ne : img.firstPageTable ≠ img.pageDirectory
  heap_ne : img.heapPageTable ≠ img.pageDirectory
  first_ne_heap : img.firstPageTable ≠ img.heapPageTable

/-- The directories in use: the master directory and those that have been created. -/
def live (img : Image) (dirs : List Nat) : List Nat := img.pageDirectory :: dirs

/-- Entry `i` of directory `D` is a user entry that names a page table. -/
structure HasTable (m : Mem) (D i : Nat) : Prop where
  two_le : 2 ≤ i
  lt : i < 1024
  present : m (D + 4 * i) % 2 = 1

/-- The page table that entry `i` of directory `D` names. -/
def tableOf (m : Mem) (D i : Nat) : Nat := pageOf (m (D + 4 * i))

/-- The invariant of the paging structures. -/
structure Spaces (img : Image) (m : Mem) (frames : Pmm.State) (dirs out : List Nat) : Prop where
  owned : Pmm.Owned img.kernelEnd frames out
  nodup : dirs.Nodup
  dir_out : ∀ D ∈ dirs, D ∈ out
  table_out : ∀ D ∈ live img dirs, ∀ i, HasTable m D i → tableOf m D i ∈ out ∧ tableOf m D i ∉ dirs
  table_inj : ∀ D ∈ live img dirs, ∀ i, HasTable m D i → ∀ D' ∈ live img dirs, ∀ i',
    HasTable m D' i' → tableOf m D i = tableOf m D' i' → D = D' ∧ i = i'
  kernel : ∀ D ∈ live img dirs, m D = img.firstPageTable ||| 3 ∧ m (D + 4) = img.heapPageTable ||| 3
  identity : ∀ i, 4096 * i + 4096 ≤ img.kernelEnd → m (img.firstPageTable + 4 * i) = i * 4096 ||| 3

/-- The frames that are out after a page has been mapped: a missing table takes one. -/
def taken (m : Mem) (frames : Pmm.State) (out : List Nat) (D virt : Nat) : List Nat :=
  if m (D + 4 * pdiOf virt) % 2 = 1 then out else (Pmm.allocFrame frames).2 :: out

/-- The page tables of a directory. -/
def tablesOf (m : Mem) (D : Nat) : List Nat :=
  ((List.range' 2 1022).filter fun i => m (D + 4 * i) % 2 = 1).map (tableOf m D)

/-- The frames that are out after a directory has been destroyed. -/
def released (m : Mem) (out : List Nat) (D : Nat) : List Nat :=
  out.filter fun a => a ≠ D ∧ a ∉ tablesOf m D

variable {img : Image} {m m' : Mem} {frames frames' : Pmm.State} {dirs out : List Nat}

theorem mem_tablesOf {D a : Nat} : a ∈ tablesOf m D ↔ ∃ i, HasTable m D i ∧ a = tableOf m D i := by
  have hrange : ∀ i, i ∈ List.range' 2 1022 ↔ 2 ≤ i ∧ i < 1024 := fun i => by
    rw [List.mem_range'_1]
  simp only [tablesOf, List.mem_map, List.mem_filter, hrange, decide_eq_true_eq]
  constructor
  · rintro ⟨i, ⟨⟨h2, hlt⟩, hpres⟩, rfl⟩
    exact ⟨i, ⟨h2, hlt, hpres⟩, rfl⟩
  · rintro ⟨i, hi, rfl⟩
    exact ⟨i, ⟨⟨hi.two_le, hi.lt⟩, hi.present⟩, rfl⟩

/-! ## Pages apart -/

/-- Words of different pages are different. -/
theorem word_ne {a b i j : Nat} (ha : 4096 ∣ a) (hb : 4096 ∣ b) (hne : a ≠ b) (hi : i < 1024)
    (hj : j < 1024) : a + 4 * i ≠ b + 4 * j := by
  obtain ⟨x, rfl⟩ := ha
  obtain ⟨y, rfl⟩ := hb
  omega

theorem not_tableWord {a b j : Nat} (ha : 4096 ∣ a) (hb : 4096 ∣ b) (hne : a ≠ b) (hj : j < 1024) :
    ¬ TableWord a 1024 (b + 4 * j) := by
  intro h
  obtain ⟨i, hi, heq⟩ := tableWord_iff.1 h
  exact word_ne hb ha hne.symm hj hi heq

theorem UserFrame.ne_image {a t : Nat} (ha : UserFrame img a) (ht : t + 4096 ≤ img.kernelEnd) :
    a ≠ t := by
  have := ha.notImage
  omega

namespace Spaces

theorem userFrame (h : Spaces img m frames dirs out) {a : Nat} (ha : a ∈ out) : UserFrame img a :=
  userFrame_of_owned h.owned ha

theorem live_aligned (h : Spaces img m frames dirs out) {D : Nat} (hD : D ∈ live img dirs) :
    4096 ∣ D := by
  rcases List.mem_cons.1 hD with rfl | hD
  · exact img.pageDirectory_aligned
  · exact (h.userFrame (h.dir_out D hD)).aligned

/-- A directory is not one of the tables of the image. -/
theorem live_ne_first (hp : Paged img) (h : Spaces img m frames dirs out) {D : Nat}
    (hD : D ∈ live img dirs) : D ≠ img.firstPageTable := by
  rcases List.mem_cons.1 hD with rfl | hD
  · exact hp.first_ne.symm
  · exact (h.userFrame (h.dir_out D hD)).ne_image img.firstPageTable_le

theorem live_ne_heap (hp : Paged img) (h : Spaces img m frames dirs out) {D : Nat}
    (hD : D ∈ live img dirs) : D ≠ img.heapPageTable := by
  rcases List.mem_cons.1 hD with rfl | hD
  · exact hp.heap_ne.symm
  · exact (h.userFrame (h.dir_out D hD)).ne_image hp.heapPageTable_le

/-- Words of a directory are not the entry of the scratchpad. -/
theorem entry_ne_scratch (hp : Paged img) (h : Spaces img m frames dirs out) {D i : Nat}
    (hD : D ∈ live img dirs) (hi : i < 1024) : D + 4 * i ≠ scratchEntry img :=
  word_ne (h.live_aligned hD) img.firstPageTable_aligned (h.live_ne_first hp hD) hi (by decide)

/-- A present entry names a kernel table or a table of its own. -/
theorem tableOf_cases (hp : Paged img) (h : Spaces img m frames dirs out) {D i : Nat}
    (hD : D ∈ live img dirs) (hi : i < 1024) (hpres : m (D + 4 * i) % 2 = 1) :
    (i = 0 ∧ tableOf m D i = img.firstPageTable) ∨ (i = 1 ∧ tableOf m D i = img.heapPageTable) ∨
      HasTable m D i := by
  obtain ⟨h₀, h₁⟩ := h.kernel D hD
  by_cases hi₀ : i = 0
  · refine Or.inl ⟨hi₀, ?_⟩
    rw [tableOf, hi₀, Nat.mul_zero, Nat.add_zero, h₀, pageOf_or_three img.firstPageTable_aligned]
  · by_cases hi₁ : i = 1
    · refine Or.inr (Or.inl ⟨hi₁, ?_⟩)
      rw [tableOf, hi₁, Nat.mul_one, h₁, pageOf_or_three hp.heapPageTable_aligned]
    · exact Or.inr (Or.inr ⟨by omega, hi, hpres⟩)

/-- Only entry 0 names the first table. -/
theorem eq_zero_of_first (hp : Paged img) (h : Spaces img m frames dirs out) {D i : Nat}
    (hD : D ∈ live img dirs) (hi : i < 1024) (hpres : m (D + 4 * i) % 2 = 1)
    (htab : tableOf m D i = img.firstPageTable) : i = 0 := by
  rcases h.tableOf_cases hp hD hi hpres with ⟨h₀, -⟩ | ⟨-, ht⟩ | ht
  · exact h₀
  · exact absurd (htab.symm.trans ht) hp.first_ne_heap
  · exact absurd htab ((h.userFrame (h.table_out D hD _ ht).1).ne_image img.firstPageTable_le)

/-- The entries of the kernel half are present. -/
theorem kernel_present (hp : Paged img) (h : Spaces img m frames dirs out) {D i : Nat}
    (hD : D ∈ live img dirs) (hi : i < 2) : m (D + 4 * i) % 2 = 1 := by
  obtain ⟨h₀, h₁⟩ := h.kernel D hD
  have hodd : ∀ {a : Nat}, 4096 ∣ a → (a ||| 3) % 2 = 1 := by
    intro a ha
    rw [pageOf_or ha (by norm_num)]
    obtain ⟨f, rfl⟩ := ha
    omega
  by_cases hi₀ : i = 0
  · rw [hi₀, Nat.mul_zero, Nat.add_zero, h₀]
    exact hodd img.firstPageTable_aligned
  · rw [show i = 1 by omega, Nat.mul_one, h₁]
    exact hodd hp.heapPageTable_aligned

/-- A page table is aligned and is none of the directories. -/
theorem tableOf_apart (hp : Paged img) (h : Spaces img m frames dirs out) {D i : Nat}
    (hD : D ∈ live img dirs) (hi : i < 1024) (hpres : m (D + 4 * i) % 2 = 1) :
    4096 ∣ tableOf m D i ∧ ∀ D' ∈ live img dirs, tableOf m D i ≠ D' := by
  refine ⟨pageOf_dvd _, fun D' hD' heq => ?_⟩
  rcases h.tableOf_cases hp hD hi hpres with ⟨-, ht⟩ | ⟨-, ht⟩ | ht
  · exact h.live_ne_first hp hD' (heq ▸ ht)
  · exact h.live_ne_heap hp hD' (heq ▸ ht)
  · obtain ⟨hout, hdir⟩ := h.table_out D hD i ht
    rcases List.mem_cons.1 hD' with hmaster | hD'
    · exact (h.userFrame hout).ne_image img.pageDirectory_le (heq.trans hmaster)
    · exact hdir (heq ▸ hD')

/-- A page table belongs to one entry of one directory, or to the kernel half of all. -/
theorem tableOf_inj (hp : Paged img) (h : Spaces img m frames dirs out) {D D' i i' : Nat}
    (hD : D ∈ live img dirs) (hD' : D' ∈ live img dirs) (hi : i < 1024) (hi' : i' < 1024)
    (hpres : m (D + 4 * i) % 2 = 1) (hpres' : m (D' + 4 * i') % 2 = 1)
    (heq : tableOf m D i = tableOf m D' i') : i = i' ∧ (D = D' ∨ i < 2) := by
  have hfar : ∀ {D i t : Nat}, D ∈ live img dirs → HasTable m D i → t + 4096 ≤ img.kernelEnd →
      tableOf m D i ≠ t := fun hD ht hle =>
    (h.userFrame (h.table_out _ hD _ ht).1).ne_image hle
  rcases h.tableOf_cases hp hD hi hpres with ⟨hi₀, ht⟩ | ⟨hi₁, ht⟩ | ht
  · rcases h.tableOf_cases hp hD' hi' hpres' with ⟨hi₀', ht'⟩ | ⟨-, ht'⟩ | ht'
    · exact ⟨by omega, Or.inr (by omega)⟩
    · exact absurd (ht.symm.trans (heq.trans ht')) hp.first_ne_heap
    · exact absurd (heq.symm.trans ht) (hfar hD' ht' img.firstPageTable_le)
  · rcases h.tableOf_cases hp hD' hi' hpres' with ⟨-, ht'⟩ | ⟨hi₁', ht'⟩ | ht'
    · exact absurd (ht'.symm.trans (heq.symm.trans ht)) hp.first_ne_heap
    · exact ⟨by omega, Or.inr (by omega)⟩
    · exact absurd (heq.symm.trans ht) (hfar hD' ht' hp.heapPageTable_le)
  · rcases h.tableOf_cases hp hD' hi' hpres' with ⟨-, ht'⟩ | ⟨-, ht'⟩ | ht'
    · exact absurd (heq.trans ht') (hfar hD ht img.firstPageTable_le)
    · exact absurd (heq.trans ht') (hfar hD ht hp.heapPageTable_le)
    · obtain ⟨hDD, hii⟩ := h.table_inj D hD i ht D' hD' i' ht' heq
      exact ⟨hii, Or.inl hDD⟩

/-- A step that changes no directory and none of the image's mappings. -/
theorem frame (h : Spaces img m frames dirs out)
    (hdir : ∀ D ∈ live img dirs, ∀ i, i < 1024 → m' (D + 4 * i) = m (D + 4 * i))
    (hident : ∀ i, 4096 * i + 4096 ≤ img.kernelEnd →
      m' (img.firstPageTable + 4 * i) = m (img.firstPageTable + 4 * i)) :
    Spaces img m' frames dirs out := by
  have htab : ∀ D ∈ live img dirs, ∀ i, HasTable m' D i →
      HasTable m D i ∧ tableOf m' D i = tableOf m D i := by
    intro D hD i ht
    have heq := hdir D hD i ht.lt
    exact ⟨⟨ht.two_le, ht.lt, heq ▸ ht.present⟩, by rw [tableOf, heq, tableOf]⟩
  refine ⟨h.owned, h.nodup, h.dir_out, fun D hD i ht => ?_, fun D hD i ht D' hD' i' ht' heq => ?_,
    fun D hD => ?_, fun i hi => by rw [hident i hi, h.identity i hi]⟩
  · obtain ⟨ht₀, heq⟩ := htab D hD i ht
    rw [heq]
    exact h.table_out D hD i ht₀
  · obtain ⟨ht₀, heq₀⟩ := htab D hD i ht
    obtain ⟨ht₀', heq₀'⟩ := htab D' hD' i' ht'
    rw [heq₀, heq₀'] at heq
    exact h.table_inj D hD i ht₀ D' hD' i' ht₀' heq
  · have h₀ := hdir D hD 0 (by decide)
    have h₁ := hdir D hD 1 (by decide)
    rw [Nat.mul_zero, Nat.add_zero] at h₀
    rw [Nat.mul_one] at h₁
    rw [h₀, h₁]
    exact h.kernel D hD

/-! ## Writing a table entry -/

/-- The walks a write to the entry for `virt` of directory `D` does not concern: other
pages, and the user pages of other directories.  The scratchpad page is left out. -/
structure Elsewhere (D virt D' virt' : Nat) : Prop where
  lt : virt' < 2 ^ 32
  not_scratch : virt' / 4096 ≠ 0x3FF
  ne : virt' / 4096 ≠ virt / 4096 ∨ (D' ≠ D ∧ 2 ≤ pdiOf virt)

theorem page_eq_of_indices {virt virt' : Nat} (h₁ : pdiOf virt = pdiOf virt')
    (h₂ : ptiOf virt = ptiOf virt') : virt / 4096 = virt' / 4096 := by
  unfold pdiOf at h₁
  unfold ptiOf at h₂
  omega

/-- The table entry of a page other than the scratchpad page is not the entry of the
scratchpad. -/
theorem pteAddr_ne_scratch (hp : Paged img) (h : Spaces img m frames dirs out) {D virt : Nat}
    (hD : D ∈ live img dirs) (hvirt : virt < 2 ^ 32) (hne : virt / 4096 ≠ 0x3FF)
    (hpres : pde m D virt % 2 = 1) : pteAddr m D virt ≠ scratchEntry img := by
  have hi := pdiOf_lt hvirt
  intro heq
  by_cases htab : tableOf m D (pdiOf virt) = img.firstPageTable
  · -- the table is the first one, so the page is one of the first 4 MB
    have hpdi : pdiOf virt = 0 := h.eq_zero_of_first hp hD hi hpres htab
    have hsame : img.firstPageTable + 4 * ptiOf virt = img.firstPageTable + 4 * 1023 := by
      rw [← htab]
      exact heq.trans (by rw [scratchEntry, htab])
    unfold pdiOf at hpdi
    unfold ptiOf at hsame
    omega
  · exact word_ne (pageOf_dvd _) img.firstPageTable_aligned htab (ptiOf_lt virt) (by decide) heq

theorem withEntry (hp : Paged img) (h : Spaces img m frames dirs out) {D virt v : Nat}
    (hD : D ∈ live img dirs) (hvirt : virt < 2 ^ 32) (himg : img.kernelEnd ≤ virt)
    (hpres : m (D + 4 * pdiOf virt) % 2 = 1) :
    Spaces img (withEntry img m (tableOf m D (pdiOf virt)) (ptiOf virt) v) frames dirs out := by
  have hi := pdiOf_lt hvirt
  have hke := img.kernelEnd_le
  obtain ⟨halign, hdirs⟩ := h.tableOf_apart hp hD hi hpres
  refine h.frame (fun D' hD' i hi' => ?_) fun i hi' => ?_
  · rw [withEntry_apply, if_neg (h.entry_ne_scratch hp hD' hi'),
      if_neg (word_ne (h.live_aligned hD') halign (hdirs D' hD').symm hi' (ptiOf_lt virt))]
  · have hscratch : img.firstPageTable + 4 * i ≠ scratchEntry img := by
      unfold scratchEntry
      omega
    rw [withEntry_apply, if_neg hscratch, if_neg]
    by_cases htab : tableOf m D (pdiOf virt) = img.firstPageTable
    · -- an entry of the first table that is written belongs to a page behind the image
      have hpdi : pdiOf virt = 0 := h.eq_zero_of_first hp hD hi hpres htab
      rw [htab]
      unfold pdiOf at hpdi
      unfold ptiOf
      omega
    · exact word_ne img.firstPageTable_aligned halign (Ne.symm htab) (by omega) (ptiOf_lt virt)

/-- What writing a table entry does to the walks. -/
theorem walk_withEntry (hp : Paged img) (h : Spaces img m frames dirs out) {D virt v : Nat}
    (hD : D ∈ live img dirs) (hvirt : virt < 2 ^ 32) (hpres : m (D + 4 * pdiOf virt) % 2 = 1) :
    (virt / 4096 ≠ 0x3FF → v % 2 = 1 →
      walk (Vmm.withEntry img m (tableOf m D (pdiOf virt)) (ptiOf virt) v) D virt = some v) ∧
    (virt / 4096 ≠ 0x3FF → v % 2 = 0 →
      walk (Vmm.withEntry img m (tableOf m D (pdiOf virt)) (ptiOf virt) v) D virt = none) ∧
    ∀ D' ∈ live img dirs, ∀ virt', Elsewhere D virt D' virt' →
      walk (Vmm.withEntry img m (tableOf m D (pdiOf virt)) (ptiOf virt) v) D' virt' =
        walk m D' virt' := by
  have hi := pdiOf_lt hvirt
  obtain ⟨halign, hdirs⟩ := h.tableOf_apart hp hD hi hpres
  have hpde : ∀ D' ∈ live img dirs, ∀ virt', virt' < 2 ^ 32 →
      pde (Vmm.withEntry img m (tableOf m D (pdiOf virt)) (ptiOf virt) v) D' virt' =
        pde m D' virt' := by
    intro D' hD' virt' hvirt'
    have hi' := pdiOf_lt hvirt'
    rw [pde, withEntry_apply, if_neg (h.entry_ne_scratch hp hD' hi'),
      if_neg (word_ne (h.live_aligned hD') halign (hdirs D' hD').symm hi' (ptiOf_lt virt)), pde]
  have hself : virt / 4096 ≠ 0x3FF →
      Vmm.withEntry img m (tableOf m D (pdiOf virt)) (ptiOf virt) v
        (pteAddr (Vmm.withEntry img m (tableOf m D (pdiOf virt)) (ptiOf virt) v) D virt) = v := by
    intro hne
    have haddr : pteAddr (Vmm.withEntry img m (tableOf m D (pdiOf virt)) (ptiOf virt) v) D virt =
        pteAddr m D virt := by
      rw [pteAddr, hpde D hD virt hvirt, pteAddr]
    rw [haddr, withEntry_apply, if_neg (h.pteAddr_ne_scratch hp hD hvirt hne hpres)]
    exact if_pos rfl
  have hpres' : pde (Vmm.withEntry img m (tableOf m D (pdiOf virt)) (ptiOf virt) v) D virt % 2 =
      1 := by
    rw [hpde D hD virt hvirt]
    exact hpres
  refine ⟨fun hne hv => ?_, fun hne hv => ?_, fun D' hD' virt' helse => ?_⟩
  · rw [walk, hself hne, if_pos ⟨hpres', hv⟩]
  · rw [walk, hself hne, if_neg fun hc => by omega]
  · refine walk_congr (hpde D' hD' virt' helse.lt) fun hp' => ?_
    rw [withEntry_apply, if_neg (h.pteAddr_ne_scratch hp hD' helse.lt helse.not_scratch hp'), if_neg]
    intro heq
    have hi' := pdiOf_lt helse.lt
    by_cases htab : tableOf m D' (pdiOf virt') = tableOf m D (pdiOf virt)
    · obtain ⟨hpdi, hdir⟩ := h.tableOf_inj hp hD' hD hi' hi hp' hpres htab
      have hpti : ptiOf virt' = ptiOf virt := by
        have : tableOf m D' (pdiOf virt') + 4 * ptiOf virt' =
          tableOf m D (pdiOf virt) + 4 * ptiOf virt := heq
        omega
      rcases helse.ne with hpage | ⟨hDD, h2⟩
      · exact hpage (page_eq_of_indices hpdi hpti)
      · rcases hdir with hdir | hlt
        · exact hDD hdir
        · omega
    · exact word_ne (pageOf_dvd _) halign htab (ptiOf_lt virt') (ptiOf_lt virt) heq

/-! ## Linking a new table -/

section NewTable

variable {D pdi t : Nat}

/-- The words of the directories after a new table has been linked. -/
theorem withTable_live (hp : Paged img) (h : Spaces img m frames dirs out) (ht : UserFrame img t)
    (hfresh : t ∉ out) {D' i : Nat} (hD' : D' ∈ live img dirs) (hi : i < 1024) :
    Vmm.withTable img m D pdi t (D' + 4 * i) =
      if D' + 4 * i = D + 4 * pdi then t ||| 7 else m (D' + 4 * i) := by
  have hne : t ≠ D' := by
    rcases List.mem_cons.1 hD' with rfl | hD'
    · exact ht.ne_image img.pageDirectory_le
    · exact fun heq => hfresh (heq ▸ h.dir_out D' hD')
  rw [Vmm.withTable, if_neg (h.entry_ne_scratch hp hD' hi),
    if_neg (not_tableWord ht.aligned (h.live_aligned hD') hne hi)]

theorem withTable (hp : Paged img) (h : Spaces img m frames dirs out) (hD : D ∈ live img dirs)
    (hpdi : pdi < 1024) (habs : m (D + 4 * pdi) % 2 = 0) (hfresh : t ∉ out)
    (hown : Pmm.Owned img.kernelEnd frames' (t :: out)) :
    Spaces img (Vmm.withTable img m D pdi t) frames' dirs (t :: out) := by
  have ht : UserFrame img t := userFrame_of_owned hown (List.mem_cons_self ..)
  have h2 : 2 ≤ pdi := by
    by_contra hlt
    have := h.kernel_present hp hD (i := pdi) (by omega)
    omega
  have hwords : ∀ {D' i : Nat}, D' ∈ live img dirs → i < 1024 →
      Vmm.withTable img m D pdi t (D' + 4 * i) =
        if D' + 4 * i = D + 4 * pdi then t ||| 7 else m (D' + 4 * i) :=
    fun hD' hi => h.withTable_live hp ht hfresh hD' hi
  have htable : pageOf (t ||| 7) = t := pageOf_or_of_lt ht.aligned (by norm_num)
  -- a table of the new directory is the new one or one of the old ones
  have hcases : ∀ D' ∈ live img dirs, ∀ i, HasTable (Vmm.withTable img m D pdi t) D' i →
      (D' = D ∧ i = pdi ∧ tableOf (Vmm.withTable img m D pdi t) D' i = t) ∨
      (HasTable m D' i ∧ tableOf (Vmm.withTable img m D pdi t) D' i = tableOf m D' i) := by
    intro D' hD' i hi
    have hw := hwords hD' hi.lt
    by_cases heq : D' + 4 * i = D + 4 * pdi
    · have hDD : D' = D := by
        by_contra hne
        exact word_ne (h.live_aligned hD') (h.live_aligned hD) hne hi.lt hpdi heq
      refine Or.inl ⟨hDD, by omega, ?_⟩
      rw [tableOf, hw, if_pos heq, htable]
    · rw [if_neg heq] at hw
      exact Or.inr ⟨⟨hi.two_le, hi.lt, hw ▸ hi.present⟩, by rw [tableOf, hw, tableOf]⟩
  have hnotdir : t ∉ dirs := fun hd => hfresh (h.dir_out t hd)
  have hold : ∀ {D' i : Nat}, D' ∈ live img dirs → HasTable m D' i → tableOf m D' i ≠ t :=
    fun hD' hi heq => hfresh (heq ▸ (h.table_out _ hD' _ hi).1)
  refine ⟨hown, h.nodup, fun D' hD' => List.mem_cons_of_mem _ (h.dir_out D' hD'),
    fun D' hD' i hi => ?_, fun D₁ hD₁ i₁ hi₁ D₂ hD₂ i₂ hi₂ heq => ?_, fun D' hD' => ?_,
    fun i hi => ?_⟩
  · rcases hcases D' hD' i hi with ⟨-, -, htab⟩ | ⟨hi₀, htab⟩
    · rw [htab]
      exact ⟨List.mem_cons_self .., hnotdir⟩
    · rw [htab]
      exact ⟨List.mem_cons_of_mem _ (h.table_out D' hD' i hi₀).1, (h.table_out D' hD' i hi₀).2⟩
  · rcases hcases D₁ hD₁ i₁ hi₁ with ⟨rfl, rfl, htab₁⟩ | ⟨hi₁', htab₁⟩
    · rcases hcases D₂ hD₂ i₂ hi₂ with ⟨rfl, rfl, -⟩ | ⟨hi₂', htab₂⟩
      · exact ⟨rfl, rfl⟩
      · exact absurd (htab₂.symm.trans (heq.symm.trans htab₁)) (hold hD₂ hi₂')
    · rcases hcases D₂ hD₂ i₂ hi₂ with ⟨rfl, rfl, htab₂⟩ | ⟨hi₂', htab₂⟩
      · exact absurd (htab₁.symm.trans (heq.trans htab₂)) (hold hD₁ hi₁')
      · exact h.table_inj D₁ hD₁ i₁ hi₁' D₂ hD₂ i₂ hi₂' (htab₁.symm.trans (heq.trans htab₂))
  · have hkeep : ∀ i, i < 2 → Vmm.withTable img m D pdi t (D' + 4 * i) = m (D' + 4 * i) := by
      intro i hi
      rw [hwords hD' (by omega), if_neg]
      intro heq
      by_cases hDD : D' = D
      · omega
      · exact word_ne (h.live_aligned hD') (h.live_aligned hD) hDD (by omega) hpdi heq
    have h₀ := hkeep 0 (by decide)
    have h₁ := hkeep 1 (by decide)
    rw [Nat.mul_zero, Nat.add_zero] at h₀
    rw [Nat.mul_one] at h₁
    rw [h₀, h₁]
    exact h.kernel D' hD'
  · have hke := img.kernelEnd_le
    have hi' : i < 1023 := by omega
    have hscratch : img.firstPageTable + 4 * i ≠ scratchEntry img := by
      unfold scratchEntry
      omega
    rw [Vmm.withTable, if_neg hscratch,
      if_neg (not_tableWord ht.aligned img.firstPageTable_aligned
        (ht.ne_image img.firstPageTable_le) (by omega)),
      if_neg (word_ne img.firstPageTable_aligned (h.live_aligned hD)
        (h.live_ne_first hp hD).symm (by omega) hpdi), h.identity i hi]

/-- A new table changes no walk: its own pages are not mapped before and after. -/
theorem walk_withTable (hp : Paged img) (h : Spaces img m frames dirs out) (hD : D ∈ live img dirs)
    (hpdi : pdi < 1024) (habs : m (D + 4 * pdi) % 2 = 0) (ht : UserFrame img t) (hfresh : t ∉ out)
    {D' virt' : Nat} (hD' : D' ∈ live img dirs) (hvirt' : virt' < 2 ^ 32)
    (hne : virt' / 4096 ≠ 0x3FF) :
    walk (Vmm.withTable img m D pdi t) D' virt' = walk m D' virt' := by
  have hi' := pdiOf_lt hvirt'
  have hw : Vmm.withTable img m D pdi t (D' + 4 * pdiOf virt') = _ :=
    h.withTable_live hp ht hfresh hD' hi'
  by_cases heq : D' + 4 * pdiOf virt' = D + 4 * pdi
  · rw [if_pos heq] at hw
    have hword : TableWord t 1024 (t + 4 * ptiOf virt') :=
      tableWord_iff.2 ⟨_, ptiOf_lt virt', rfl⟩
    have hscratch : t + 4 * ptiOf virt' ≠ scratchEntry img := ht.ne_scratchEntry (by omega)
    have hpte : Vmm.withTable img m D pdi t (pteAddr (Vmm.withTable img m D pdi t) D' virt') =
        0 := by
      rw [pteAddr, pde, hw, pageOf_or_of_lt ht.aligned (by norm_num), Vmm.withTable,
        if_neg hscratch, if_pos hword]
    have hbefore : ¬ pde m D' virt' % 2 = 1 := by
      rw [pde, heq]
      omega
    rw [walk, hpte, if_neg (by simp), walk, if_neg fun hc => hbefore hc.1]
  · rw [if_neg heq] at hw
    refine walk_congr hw fun hpres => ?_
    have haddr : pteAddr m D' virt' = tableOf m D' (pdiOf virt') + 4 * ptiOf virt' := rfl
    obtain ⟨halign, hdirs⟩ := h.tableOf_apart hp hD' hi' hpres
    have htab : t ≠ tableOf m D' (pdiOf virt') := by
      rcases h.tableOf_cases hp hD' hi' hpres with ⟨-, heq⟩ | ⟨-, heq⟩ | hi
      · rw [heq]
        exact ht.ne_image img.firstPageTable_le
      · rw [heq]
        exact ht.ne_image hp.heapPageTable_le
      · exact fun heq => hfresh (heq ▸ (h.table_out D' hD' _ hi).1)
    rw [Vmm.withTable, if_neg (h.pteAddr_ne_scratch hp hD' hvirt' hne hpres), haddr,
      if_neg (not_tableWord ht.aligned halign htab (ptiOf_lt virt')),
      if_neg (word_ne halign (h.live_aligned hD) (hdirs D hD) (ptiOf_lt virt') hpdi)]

end NewTable

/-! ## The calls -/

/-- A frame that is handed out is apart from every live directory. -/
theorem apart (h : Spaces img m frames dirs out) {D virt t : Nat}
    (hD : D ∈ live img dirs) (hvirt : virt < 2 ^ 32)
    (hal : Pmm.allocFrame frames = (frames', t)) (ht : t ≠ 0) :
    Apart img D (pdiOf virt) t ∧ UserFrame img t ∧ t ∉ out ∧
      Pmm.Owned img.kernelEnd frames' (t :: out) := by
  have hown := h.owned.alloc hal
  rw [if_neg ht] at hown
  have hu : UserFrame img t := userFrame_of_owned hown (List.mem_cons_self ..)
  have hfresh : t ∉ out := (List.nodup_cons.1 hown.nodup).1
  have hne : t ≠ D := by
    rcases List.mem_cons.1 hD with rfl | hD
    · exact hu.ne_image img.pageDirectory_le
    · exact fun heq => hfresh (heq ▸ h.dir_out D hD)
  exact ⟨⟨hu.aligned, not_tableWord hu.aligned img.firstPageTable_aligned
      (hu.ne_image img.firstPageTable_le) (by decide),
    not_tableWord hu.aligned (h.live_aligned hD) hne (pdiOf_lt hvirt)⟩, hu, hfresh, hown⟩

/-- What a call that maps a page leaves behind. -/
structure MapEffect (img : Image) (m m' : Mem) (dirs : List Nat) (D virt v : Nat) : Prop where
  mapped : virt / 4096 ≠ 0x3FF → v % 2 = 1 → walk m' D virt = some v
  unmapped : virt / 4096 ≠ 0x3FF → v % 2 = 0 → walk m' D virt = none
  elsewhere : ∀ D' ∈ live img dirs, ∀ virt', Elsewhere D virt D' virt' →
    walk m' D' virt' = walk m D' virt'

/-- **Mapping a page** keeps the invariant and changes the walk at that page only. -/
theorem mapped (hp : Paged img) (h : Spaces img m frames dirs out) {D virt v : Nat}
    (hD : D ∈ live img dirs) (hvirt : virt < 2 ^ 32) (himg : img.kernelEnd ≤ virt)
    (hmap : Mapped img m frames D virt v m' frames') :
    Spaces img m' frames' dirs (taken m frames out D virt) ∧
      MapEffect img m m' dirs D virt v := by
  have hi := pdiOf_lt hvirt
  cases hmap with
  | present hpres =>
      obtain ⟨h₁, h₂, h₃⟩ := h.walk_withEntry (v := v) hp hD hvirt hpres
      rw [taken, if_pos hpres]
      exact ⟨h.withEntry hp hD hvirt himg hpres, h₁, h₂, h₃⟩
  | @absent _ t habs hal ht =>
      obtain ⟨hapart, hu, hfresh, hown⟩ := h.apart hD hvirt hal ht
      have h' := h.withTable hp hD hi habs hfresh hown
      have hentry := withTable_entry (m := m) hapart (h.entry_ne_scratch hp hD hi)
      have htab : tableOf (Vmm.withTable img m D (pdiOf virt) t) D (pdiOf virt) = t := by
        rw [tableOf, hentry, pageOf_or_of_lt hu.aligned (by norm_num)]
      have hpres : Vmm.withTable img m D (pdiOf virt) t (D + 4 * pdiOf virt) % 2 = 1 := by
        rw [hentry, pageOf_or hu.aligned (by norm_num)]
        obtain ⟨f, rfl⟩ := hu.aligned
        omega
      have hs := h'.withEntry (v := v) hp hD hvirt himg hpres
      obtain ⟨h₁, h₂, h₃⟩ := h'.walk_withEntry (v := v) hp hD hvirt hpres
      rw [htab] at hs h₁ h₂ h₃
      rw [taken, if_neg (by omega), hal]
      refine ⟨hs, h₁, h₂, fun D' hD' virt' helse => ?_⟩
      rw [h₃ D' hD' virt' helse]
      exact h.walk_withTable hp hD hi habs hu hfresh hD' helse.lt helse.not_scratch

/-- Unmapping a page of the master directory. -/
theorem unmapped (hp : Paged img) (h : Spaces img m frames dirs out) {virt : Nat}
    (hvirt : virt < 2 ^ 32) (himg : img.kernelEnd ≤ virt) :
    Spaces img (unmapPage img m virt) frames dirs out ∧
      MapEffect img m (unmapPage img m virt) dirs img.pageDirectory virt 0 := by
  have hD : img.pageDirectory ∈ live img dirs := List.mem_cons_self ..
  rw [unmapPage_eq]
  split
  · rename_i habs
    refine ⟨h, fun _ hv => absurd hv (by decide), fun _ _ => ?_, fun _ _ _ _ => rfl⟩
    have hpde : ¬ pde m img.pageDirectory virt % 2 = 1 := by
      rw [pde]
      omega
    rw [walk, if_neg fun hc => hpde hc.1]
  · rename_i hpres
    have hpres' : m (img.pageDirectory + 4 * pdiOf virt) % 2 = 1 := by omega
    obtain ⟨h₁, h₂, h₃⟩ := h.walk_withEntry (v := 0) hp hD hvirt hpres'
    exact ⟨h.withEntry hp hD hvirt himg hpres', h₁, h₂, h₃⟩

/-- A query only unmaps the scratchpad. -/
theorem queried (hp : Paged img) (h : Spaces img m frames dirs out) (virt : Nat) :
    Spaces img (getPhysical img m virt).1 frames dirs out ∧
      ∀ D ∈ live img dirs, ∀ virt', virt' < 2 ^ 32 → virt' / 4096 ≠ 0x3FF →
        walk (getPhysical img m virt).1 D virt' = walk m D virt' := by
  have hother : ∀ x, x ≠ scratchEntry img → (getPhysical img m virt).1 x = m x := by
    intro x hx
    unfold getPhysical
    split
    · rfl
    · dsimp only
      rw [mapScratch_of_ne hx, mapScratch_of_ne hx]
  have hke := img.kernelEnd_le
  refine ⟨h.frame (fun D hD i hi => hother _ (h.entry_ne_scratch hp hD hi)) fun i hi =>
    hother _ (by unfold scratchEntry; omega), fun D hD virt' hlt hne => ?_⟩
  exact walk_congr (hother _ (h.entry_ne_scratch hp hD (pdiOf_lt hlt))) fun hpres =>
    hother _ (h.pteAddr_ne_scratch hp hD hlt hne hpres)

/-! ### Creating and destroying a directory -/

/-- Clearing the user bit of a supervisor entry does nothing. -/
theorem clearUser_or_three {a : Nat} (ha : 4096 ∣ a) (hlt : a < 2 ^ 32) :
    clearUser (a ||| 3) = a ||| 3 := by
  obtain ⟨f, rfl⟩ := ha
  have hf : f < 2 ^ 20 := by omega
  have hmask : 2 ^ 32 - 1 - 4 = 2 ^ 12 * (2 ^ 20 - 1) + 4091 := by norm_num
  rw [clearUser, pageOf_or (Dvd.intro _ rfl) (by norm_num), hmask,
    show 4096 * f + 3 = 2 ^ 12 * f + 3 by norm_num]
  refine Nat.eq_of_testBit_eq fun j => ?_
  rw [Nat.testBit_and, Nat.testBit_two_pow_mul_add _ (by norm_num),
    Nat.testBit_two_pow_mul_add _ (by norm_num)]
  split
  · rw [← Nat.testBit_and]
    rfl
  · rw [← Nat.testBit_and, Nat.and_two_pow_sub_one_eq_mod, Nat.mod_eq_of_lt hf]

/-- The words of a new directory, and of the others. -/
theorem withDirectory_entry {a i : Nat} (ha : UserFrame img a) (hi : i < 1024) :
    withDirectory img m a (a + 4 * i) =
      if i = 0 then clearUser (m img.pageDirectory)
      else if i = 1 then clearUser (m (img.pageDirectory + 4)) else 0 := by
  have hne := ha.ne_scratchEntry (x := a + 4 * i) (by omega)
  rw [withDirectory, if_neg hne]
  by_cases h₀ : i = 0
  · rw [if_pos (by omega), if_pos h₀]
  · by_cases h₁ : i = 1
    · rw [if_neg (by omega), if_pos (by omega), if_neg h₀, if_pos h₁]
    · rw [if_neg (by omega), if_neg (by omega), if_pos (by omega), if_neg h₀, if_neg h₁]

theorem withDirectory_of_ne {a x : Nat} (hx : x ≠ scratchEntry img)
    (hxa : ¬ TableWord a 1024 x) : withDirectory img m a x = m x := by
  unfold TableWord at hxa
  rw [withDirectory, if_neg hx, if_neg (by omega), if_neg (by omega), if_neg (by omega)]

section Create

variable {a : Nat}

theorem withDirectory_live (hp : Paged img) (h : Spaces img m frames dirs out)
    (ha : UserFrame img a) (hfresh : a ∉ out) {D i : Nat} (hD : D ∈ live img dirs) (hi : i < 1024) :
    withDirectory img m a (D + 4 * i) = m (D + 4 * i) := by
  have hne : a ≠ D := by
    rcases List.mem_cons.1 hD with rfl | hD
    · exact ha.ne_image img.pageDirectory_le
    · exact fun heq => hfresh (heq ▸ h.dir_out D hD)
  exact withDirectory_of_ne (h.entry_ne_scratch hp hD hi)
    (not_tableWord ha.aligned (h.live_aligned hD) hne hi)

/-- **Creating a directory.** -/
theorem created (hp : Paged img) (h : Spaces img m frames dirs out) (hfresh : a ∉ out)
    (hown : Pmm.Owned img.kernelEnd frames' (a :: out)) :
    Spaces img (withDirectory img m a) frames' (a :: dirs) (a :: out) := by
  have ha : UserFrame img a := userFrame_of_owned hown (List.mem_cons_self ..)
  have hke := img.kernelEnd_le
  have hmaster : img.pageDirectory ∈ live img dirs := List.mem_cons_self ..
  have hlive : ∀ D, D ∈ live img (a :: dirs) → D = a ∨ D ∈ live img dirs := by
    intro D hD
    rcases List.mem_cons.1 hD with rfl | hD
    · exact Or.inr hmaster
    · rcases List.mem_cons.1 hD with rfl | hD
      · exact Or.inl rfl
      · exact Or.inr (List.mem_cons_of_mem _ hD)
  -- the new directory has no tables, the others keep theirs
  have hcases : ∀ D ∈ live img (a :: dirs), ∀ i, HasTable (withDirectory img m a) D i →
      D ∈ live img dirs ∧ HasTable m D i ∧ tableOf (withDirectory img m a) D i = tableOf m D i := by
    intro D hD i hi
    rcases hlive D hD with rfl | hD
    · have hzero := withDirectory_entry (m := m) ha hi.lt
      have h2 := hi.two_le
      rw [if_neg (by omega), if_neg (by omega)] at hzero
      have hpres := hi.present
      rw [hzero] at hpres
      exact absurd hpres (by decide)
    · have heq := h.withDirectory_live hp ha hfresh hD hi.lt
      exact ⟨hD, ⟨hi.two_le, hi.lt, heq ▸ hi.present⟩, by rw [tableOf, heq, tableOf]⟩
  refine ⟨hown, List.nodup_cons.2 ⟨fun hd => hfresh (h.dir_out a hd), h.nodup⟩, fun D hD => ?_,
    fun D hD i hi => ?_, fun D hD i hi D' hD' i' hi' heq => ?_, fun D hD => ?_, fun i hi => ?_⟩
  · rcases List.mem_cons.1 hD with rfl | hD
    · exact List.mem_cons_self ..
    · exact List.mem_cons_of_mem _ (h.dir_out D hD)
  · obtain ⟨hD, hi, heq⟩ := hcases D hD i hi
    obtain ⟨hout, hdir⟩ := h.table_out D hD i hi
    rw [heq]
    refine ⟨List.mem_cons_of_mem _ hout, fun hmem => ?_⟩
    rcases List.mem_cons.1 hmem with hta | hmem
    · exact hfresh (hta ▸ hout)
    · exact hdir hmem
  · obtain ⟨hD, hi, heq₁⟩ := hcases D hD i hi
    obtain ⟨hD', hi', heq₂⟩ := hcases D' hD' i' hi'
    rw [heq₁, heq₂] at heq
    exact h.table_inj D hD i hi D' hD' i' hi' heq
  · rcases hlive D hD with rfl | hD
    · obtain ⟨h₀, h₁⟩ := h.kernel _ hmaster
      have hfirst := img.firstPageTable_le
      have hheap := hp.heapPageTable_le
      have e₀ := withDirectory_entry (m := m) (i := 0) ha (by decide)
      have e₁ := withDirectory_entry (m := m) (i := 1) ha (by decide)
      rw [Nat.mul_zero, Nat.add_zero, if_pos rfl, h₀,
        clearUser_or_three img.firstPageTable_aligned (by omega)] at e₀
      rw [Nat.mul_one, if_neg (by decide), if_pos rfl, h₁,
        clearUser_or_three hp.heapPageTable_aligned (by omega)] at e₁
      exact ⟨e₀, e₁⟩
    · have e₀ := h.withDirectory_live (i := 0) hp ha hfresh hD (by decide)
      have e₁ := h.withDirectory_live (i := 1) hp ha hfresh hD (by decide)
      rw [Nat.mul_zero, Nat.add_zero] at e₀
      rw [Nat.mul_one] at e₁
      rw [e₀, e₁]
      exact h.kernel D hD
  · rw [withDirectory_of_ne (by unfold scratchEntry; omega)
      (not_tableWord ha.aligned img.firstPageTable_aligned (ha.ne_image img.firstPageTable_le)
        (by omega)), h.identity i hi]

/-- Creating a directory changes no walk of another one, and the new one has no user
page. -/
theorem walk_created (hp : Paged img) (h : Spaces img m frames dirs out) (ha : UserFrame img a)
    (hfresh : a ∉ out) :
    (∀ D ∈ live img dirs, ∀ virt, virt < 2 ^ 32 → virt / 4096 ≠ 0x3FF →
      walk (withDirectory img m a) D virt = walk m D virt) ∧
    ∀ virt, 0x800000 ≤ virt → virt < 2 ^ 32 → walk (withDirectory img m a) a virt = none := by
  refine ⟨fun D hD virt hlt hne => ?_, fun virt hle hlt => ?_⟩
  · have hi := pdiOf_lt hlt
    refine walk_congr (h.withDirectory_live hp ha hfresh hD hi) fun hpres => ?_
    have hout : a ≠ tableOf m D (pdiOf virt) := by
      rcases h.tableOf_cases hp hD hi hpres with ⟨-, ht⟩ | ⟨-, ht⟩ | ht
      · rw [ht]
        exact ha.ne_image img.firstPageTable_le
      · rw [ht]
        exact ha.ne_image hp.heapPageTable_le
      · exact fun heq => hfresh (heq ▸ (h.table_out D hD _ ht).1)
    exact withDirectory_of_ne (h.pteAddr_ne_scratch hp hD hlt hne hpres)
      (not_tableWord ha.aligned (pageOf_dvd _) hout (ptiOf_lt virt))
  · have hi := pdiOf_lt hlt
    have h2 : 2 ≤ pdiOf virt := by
      unfold pdiOf
      omega
    have hzero := withDirectory_entry (m := m) ha hi
    rw [if_neg (by omega), if_neg (by omega)] at hzero
    have hpde : ¬ pde (withDirectory img m a) a virt % 2 = 1 := by
      rw [pde, hzero]
      decide
    rw [walk, if_neg fun hc => hpde hc.1]

end Create

/-- The loop over the user entries of a directory frees its tables. -/
theorem freeTables_spec {D : Nat} (hm : pageOf (m (scratchEntry img)) = D) {is : List Nat}
    (hnodup : is.Nodup) : ∀ {frames : Pmm.State} {out : List Nat},
      Pmm.Owned img.kernelEnd frames out →
      (∀ i ∈ is, m (D + 4 * i) % 2 = 1 → tableOf m D i ∈ out) →
      (∀ i ∈ is, ∀ j ∈ is, m (D + 4 * i) % 2 = 1 → m (D + 4 * j) % 2 = 1 →
        tableOf m D i = tableOf m D j → i = j) →
      ∃ frames' out', freeTables img m is frames = .ret frames' ∧
        Pmm.Owned img.kernelEnd frames' out' ∧
        ∀ a, a ∈ out' ↔ a ∈ out ∧ ∀ i ∈ is, m (D + 4 * i) % 2 = 1 → a ≠ tableOf m D i := by
  induction is with
  | nil => exact fun hown _ _ => ⟨_, _, rfl, hown, fun a => by simp⟩
  | cons i is ih =>
      intro frames out hown hout hinj
      obtain ⟨hi, hnodup⟩ := List.nodup_cons.1 hnodup
      have hout' : ∀ j ∈ is, m (D + 4 * j) % 2 = 1 → tableOf m D j ∈ out :=
        fun j hj => hout j (List.mem_cons_of_mem _ hj)
      have hinj' : ∀ j ∈ is, ∀ k ∈ is, m (D + 4 * j) % 2 = 1 → m (D + 4 * k) % 2 = 1 →
          tableOf m D j = tableOf m D k → j = k :=
        fun j hj k hk => hinj j (List.mem_cons_of_mem _ hj) k (List.mem_cons_of_mem _ hk)
      rw [freeTables]
      simp only [scratch_of_page hm i]
      by_cases hpres : m (D + 4 * i) % 2 = 1
      · have hmem : tableOf m D i ∈ out := hout i (List.mem_cons_self ..) hpres
        obtain ⟨frames₁, hfree, hown₁⟩ := hown.free hmem
        have hne : ∀ j ∈ is, m (D + 4 * j) % 2 = 1 → tableOf m D j ≠ tableOf m D i := by
          intro j hj hpj heq
          have := hinj j (List.mem_cons_of_mem _ hj) i (List.mem_cons_self ..) hpj hpres heq
          exact hi (this ▸ hj)
        obtain ⟨frames', out', hrun, hown', hiff⟩ := ih hnodup hown₁
          (fun j hj hpj => (hown.nodup.mem_erase_iff).2 ⟨hne j hj hpj, hout' j hj hpj⟩) hinj'
        refine ⟨frames', out', ?_, hown', fun a => ?_⟩
        · rw [if_pos hpres, show pageOf (m (D + 4 * i)) = tableOf m D i from rfl, hfree, ret_bind,
            hrun]
        · rw [hiff a, hown.nodup.mem_erase_iff, List.forall_mem_cons]
          constructor
          · rintro ⟨⟨h₁, h₂⟩, h₃⟩
            exact ⟨h₂, fun _ => h₁, h₃⟩
          · rintro ⟨h₂, h₁, h₃⟩
            exact ⟨⟨h₁ hpres, h₂⟩, h₃⟩
      · obtain ⟨frames', out', hrun, hown', hiff⟩ := ih hnodup hown hout' hinj'
        refine ⟨frames', out', by rw [if_neg hpres, hrun], hown', fun a => ?_⟩
        rw [hiff a, List.forall_mem_cons]
        exact ⟨fun ha => ⟨ha.1, fun hc => absurd hc hpres, ha.2⟩, fun ha => ⟨ha.1, ha.2.2⟩⟩

/-- **Destroying a directory** returns its tables and its frame, and changes no walk of
another one. -/
theorem destroyed (hp : Paged img) (h : Spaces img m frames dirs out) {D : Nat} (hD : D ∈ dirs) :
    ∃ m' frames', destroyAddressSpace img m frames D = .ret (m', frames') ∧
      Spaces img m' frames' (dirs.erase D) (released m out D) ∧
      m' (scratchEntry img) = 0 ∧
      ∀ D' ∈ live img (dirs.erase D), ∀ virt, virt < 2 ^ 32 → virt / 4096 ≠ 0x3FF →
        walk m' D' virt = walk m D' virt := by
  have hDlive : D ∈ live img dirs := List.mem_cons_of_mem _ hD
  have hDout := h.dir_out D hD
  have hu := h.userFrame hDout
  have hke := img.kernelEnd_le
  set m₁ := mapScratch img m (D ||| 3) with hm₁
  have hwords : ∀ i, i < 1024 → m₁ (D + 4 * i) = m (D + 4 * i) := fun i hi =>
    mapScratch_of_ne (h.entry_ne_scratch hp hDlive hi)
  have hrange : ∀ i ∈ List.range' 2 1022, 2 ≤ i ∧ i < 1024 := by
    intro i hi
    obtain ⟨j, hj, rfl⟩ := List.mem_range'.1 hi
    omega
  have htab : ∀ i ∈ List.range' 2 1022, m₁ (D + 4 * i) % 2 = 1 →
      HasTable m D i ∧ tableOf m₁ D i = tableOf m D i := by
    intro i hi hpres
    obtain ⟨h2, hlt⟩ := hrange i hi
    have hw := hwords i hlt
    exact ⟨⟨h2, hlt, hw ▸ hpres⟩, by rw [tableOf, hw, tableOf]⟩
  obtain ⟨frames₁, out₁, htables, hown₁, hiff⟩ := freeTables_spec (m := m₁) (D := D)
    (by rw [hm₁, mapScratch_self, pageOf_or_three hu.aligned])
    (List.nodup_range' (s := 2) (n := 1022)) h.owned
    (fun i hi hpres => by
      obtain ⟨ht, heq⟩ := htab i hi hpres
      rw [heq]
      exact (h.table_out D hDlive i ht).1)
    (fun i hi j hj hpi hpj heq => by
      obtain ⟨hti, heqi⟩ := htab i hi hpi
      obtain ⟨htj, heqj⟩ := htab j hj hpj
      rw [heqi, heqj] at heq
      exact (h.table_inj D hDlive i hti D hDlive j htj heq).2)
  have hD₁ : D ∈ out₁ := by
    refine (hiff D).2 ⟨hDout, fun i hi hpres heq => ?_⟩
    obtain ⟨ht, heq'⟩ := htab i hi hpres
    exact (h.table_out D hDlive i ht).2 (heq' ▸ heq ▸ hD)
  obtain ⟨frames', hfree, hown'⟩ := hown₁.free hD₁
  have hsub : ∀ D', D' ∈ live img (dirs.erase D) → D' ∈ live img dirs ∧ D' ≠ D := by
    intro D' hD'
    rcases List.mem_cons.1 hD' with rfl | hD'
    · exact ⟨List.mem_cons_self .., (hu.ne_image img.pageDirectory_le).symm⟩
    · obtain ⟨hne, hmem⟩ := (h.nodup.mem_erase_iff).1 hD'
      exact ⟨List.mem_cons_of_mem _ hmem, hne⟩
  have hother : ∀ x, x ≠ scratchEntry img → mapScratch img m₁ 0 x = m x := by
    intro x hx
    rw [mapScratch_of_ne hx, hm₁, mapScratch_of_ne hx]
  -- the frames of the other directories have not been given back
  have hkeep : ∀ a, a ∈ released m out D ↔
      a ∈ out ∧ a ≠ D ∧ ∀ i, HasTable m D i → a ≠ tableOf m D i := by
    intro a
    rw [released, List.mem_filter, decide_eq_true_eq, mem_tablesOf]
    refine and_congr_right fun _ => and_congr_right fun _ => ?_
    exact ⟨fun hn i hi heq => hn ⟨i, hi, heq⟩, fun hn ⟨i, hi, heq⟩ => hn i hi heq⟩
  have hown₂ : Pmm.Owned img.kernelEnd frames' (released m out D) := by
    refine ⟨hown'.protected_used, fun a ha => hown'.frame a ?_, h.owned.nodup.filter _⟩
    obtain ⟨ha, hne, hat⟩ := (hkeep a).1 ha
    refine (hown₁.nodup.mem_erase_iff).2 ⟨hne, (hiff a).2 ⟨ha, fun i hi hpres => ?_⟩⟩
    obtain ⟨ht, heq⟩ := htab i hi hpres
    rw [heq]
    exact hat i ht
  have hspaces : Spaces img (mapScratch img m₁ 0) frames dirs out :=
    h.frame (fun D' hD' i hi => hother _ (h.entry_ne_scratch hp hD' hi)) fun i hi =>
      hother _ (by unfold scratchEntry; omega)
  have hDtab : ∀ i, HasTable m D i → HasTable (mapScratch img m₁ 0) D i ∧
      tableOf (mapScratch img m₁ 0) D i = tableOf m D i := by
    intro i hi
    have heq := hother _ (h.entry_ne_scratch hp hDlive hi.lt)
    exact ⟨⟨hi.two_le, hi.lt, by rw [heq]; exact hi.present⟩, by rw [tableOf, heq, tableOf]⟩
  refine ⟨mapScratch img m₁ 0, frames', ?_, ?_, mapScratch_self 0, ?_⟩
  · rw [destroyAddressSpace, if_neg hu.ne_zero]
    change (freeTables img m₁ (List.range' 2 1022) frames >>= _) = _
    rw [htables, ret_bind]
    simp only [hfree, ret_bind, pure_eq]
    rfl
  · refine ⟨hown₂, h.nodup.erase _, fun D' hD' => ?_, fun D' hD' i hi => ?_,
      fun D₁ hD₁ i₁ hi₁ D₂ hD₂ i₂ hi₂ heq => ?_, fun D' hD' => ?_, hspaces.identity⟩
    · obtain ⟨hne, hmem⟩ := (h.nodup.mem_erase_iff).1 hD'
      exact (hkeep D').2 ⟨h.dir_out D' hmem, hne, fun i hi heq =>
        (h.table_out D hDlive i hi).2 (heq ▸ hmem)⟩
    · obtain ⟨hD', hne⟩ := hsub D' hD'
      obtain ⟨hout', hdir'⟩ := hspaces.table_out D' hD' i hi
      refine ⟨(hkeep _).2 ⟨hout', fun heq => hdir' (heq ▸ hD), fun j hj heq => ?_⟩, fun hmem =>
        hdir' (List.mem_of_mem_erase hmem)⟩
      obtain ⟨hj', heq'⟩ := hDtab j hj
      exact hne (hspaces.table_inj D' hD' i hi D hDlive j hj' (heq.trans heq'.symm)).1
    · exact hspaces.table_inj D₁ (hsub D₁ hD₁).1 i₁ hi₁ D₂ (hsub D₂ hD₂).1 i₂ hi₂ heq
    · exact hspaces.kernel D' (hsub D' hD').1
  · intro D' hD' virt hlt hne
    have hD' := (hsub D' hD').1
    exact walk_congr (hother _ (h.entry_ne_scratch hp hD' (pdiOf_lt hlt))) fun hpres =>
      hother _ (h.pteAddr_ne_scratch hp hD' hlt hne hpres)

end Spaces

end BenmoshOS.Vmm
