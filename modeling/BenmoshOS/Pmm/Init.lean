import BenmoshOS.Pmm.Accounting

/-!
# The physical memory manager: what `pmm_init` frees

`pmm_init` cuts base and length of a usable region to 32 bits and rounds both down
to whole frames, each by itself.  The frames it frees are therefore those of
`regionFrames`, which need not lie in the region.

* `used_pmmInit_iff` — the frames in use after `pmm_init`, exactly.
* `excess_pmmInit` — how far `free_frame_count` is ahead of the bitmap: by one for
  every frame of a region that an earlier region has already freed.
* `init_frees_usable_iff` — for which firmware maps every free frame is usable memory
  and the counter is right.
-/

namespace BenmoshOS.Pmm

/-- The regions `pmm_init` frees: the entries of type 1 before the first entry of
length 0. -/
def usable (map : List MemorymapEntry) : List MemorymapEntry :=
  (map.takeWhile fun e => e.length ≠ 0).filter fun e => e.type = 1

/-- `starting_frame_index`. -/
def startingFrameIndex (e : MemorymapEntry) : Nat := wrap32 e.base.toNat / 4096

/-- `num_frames`. -/
def numFrames (e : MemorymapEntry) : Nat := wrap32 e.length.toNat / 4096

/-- The frames that are freed for a region. -/
def regionFrames (e : MemorymapEntry) : Finset Nat :=
  Finset.Ico (startingFrameIndex e) (min (startingFrameIndex e + numFrames e) totalFrames)

/-- The frames that are freed for a list of regions. -/
def allFrames : List MemorymapEntry → Finset Nat
  | [] => ∅
  | e :: es => regionFrames e ∪ allFrames es

/-- Byte `x` lies in a region of type 1. -/
def InRam (map : List MemorymapEntry) (x : Nat) : Prop :=
  ∃ e ∈ map, e.type = 1 ∧ e.base.toNat ≤ x ∧ x < e.base.toNat + e.length.toNat

/-- Byte `x` lies in one of the ranges `pmm_init` protects. -/
def InProtected (kernelEnd x : Nat) : Prop :=
  x < 0x100000 ∨ (0x100000 ≤ x ∧ x < kernelEnd) ∨ (0x400000 ≤ x ∧ x < 0x800000)

/-- Every byte of frame `f` lies in a region of type 1. -/
def FrameInRam (map : List MemorymapEntry) (f : Nat) : Prop :=
  ∀ x, 4096 * f ≤ x → x < 4096 * f + 4096 → InRam map x

variable {map : List MemorymapEntry} {e : MemorymapEntry} {s : State} {f k kernelEnd : Nat}

theorem startingFrameIndex_lt (e : MemorymapEntry) : startingFrameIndex e < totalFrames := by
  have htf : totalFrames = 1048576 := rfl
  unfold startingFrameIndex wrap32
  omega

theorem numFrames_le (e : MemorymapEntry) : numFrames e ≤ totalFrames := by
  have htf : totalFrames = 1048576 := rfl
  unfold numFrames wrap32
  omega

theorem mem_regionFrames : f ∈ regionFrames e ↔
    startingFrameIndex e ≤ f ∧ f < startingFrameIndex e + numFrames e ∧ f < totalFrames := by
  rw [regionFrames, Finset.mem_Ico, lt_min_iff]

theorem mem_allFrames {es : List MemorymapEntry} :
    f ∈ allFrames es ↔ ∃ e ∈ es, f ∈ regionFrames e := by
  induction es with
  | nil => simp [allFrames]
  | cons e es ih => simp [allFrames, ih]

/-! ## Freeing a region -/

/-- One round of the loop over a region. -/
theorem releaseStep_eq {a i : Nat} (h : a + i < 2 ^ 32) :
    releaseStep a s i = if a + i < totalFrames then (markFree s (a + i)).countUp else s := by
  have hwrap : wrap32 (a + i) = a + i := Nat.mod_eq_of_lt h
  unfold releaseStep
  rw [hwrap]

theorem used_releaseRegion (s : State) (e : MemorymapEntry) :
    Used (releaseRegion s e) f ↔ Used s f ∧ f ∉ regionFrames e := by
  have hstart := startingFrameIndex_lt e
  have hnum := numFrames_le e
  have htf : totalFrames = 1048576 := rfl
  have hsteps : ∀ n, n ≤ numFrames e →
      (Used ((List.range n).foldl (releaseStep (startingFrameIndex e)) s) f ↔
        Used s f ∧ ¬ (startingFrameIndex e ≤ f ∧ f < startingFrameIndex e + n ∧
          f < totalFrames)) := by
    intro n
    induction n with
    | zero =>
        intro _
        rw [List.range_zero, List.foldl_nil, and_iff_left]
        omega
    | succ n ih =>
        intro hn
        rw [List.range_succ, List.foldl_append, List.foldl_cons, List.foldl_nil,
          releaseStep_eq (by omega)]
        split
        · rename_i hf
          rw [used_countUp, used_markFree hf, ih (by omega), and_assoc]
          refine and_congr_right fun _ => ?_
          omega
        · rw [ih (by omega)]
          refine and_congr_right fun _ => ?_
          omega
  rw [mem_regionFrames]
  exact hsteps (numFrames e) (le_refl _)

/-- The counter is ahead of the bitmap when the sum of what has been counted is ahead of
the number of free frames. -/
theorem excess_of_sum {n : Nat} (hcount : s.freeFrameCount = wrap32 n)
    (hle : (freeFrames s).card ≤ n) : Excess s (n - (freeFrames s).card) := by
  unfold Excess
  rw [hcount, Nat.add_sub_cancel' hle]

theorem count_releaseRegion (s : State) (e : MemorymapEntry) {n : Nat}
    (h : s.freeFrameCount = wrap32 n) :
    (releaseRegion s e).freeFrameCount = wrap32 (n + (regionFrames e).card) := by
  have hstart := startingFrameIndex_lt e
  have hnum := numFrames_le e
  have htf : totalFrames = 1048576 := rfl
  have hsteps : ∀ m, m ≤ numFrames e →
      ((List.range m).foldl (releaseStep (startingFrameIndex e)) s).freeFrameCount =
        wrap32 (n + (min (startingFrameIndex e + m) totalFrames - startingFrameIndex e)) := by
    intro m
    induction m with
    | zero =>
        intro _
        rw [List.range_zero, List.foldl_nil, h]
        congr 1
        omega
    | succ m ih =>
        intro hm
        have ih' := ih (by omega)
        rw [List.range_succ, List.foldl_append, List.foldl_cons, List.foldl_nil,
          releaseStep_eq (by omega)]
        split
        · rename_i hf
          rw [State.countUp, markFree, if_neg (by omega)]
          dsimp only
          have hlt : startingFrameIndex e + (m + 1) ≤ totalFrames := by omega
          rw [ih', Nat.min_eq_left hf.le, Nat.min_eq_left hlt, Nat.add_sub_cancel_left,
            Nat.add_sub_cancel_left]
          unfold wrap32
          omega
        · rename_i hf
          have hle : totalFrames ≤ startingFrameIndex e + (m + 1) := by omega
          rw [ih', Nat.min_eq_right (Nat.le_of_not_lt hf), Nat.min_eq_right hle]
  rw [regionFrames, Nat.card_Ico]
  exact hsteps (numFrames e) (le_refl _)

/-! ## The scan of the map -/

theorem scanMap_cons_usable {es : List MemorymapEntry} (h : e.length ≠ 0) :
    scanMap (e :: es) s = scanMap es (if e.type = 1 then releaseRegion s e else s) := by
  rw [scanMap, if_neg h]

theorem usable_cons_of_ne {es : List MemorymapEntry} (h : e.length ≠ 0) :
    usable (e :: es) = if e.type = 1 then e :: usable es else usable es := by
  rw [usable, List.takeWhile_cons_of_pos (by simpa using h), List.filter_cons]
  simp only [decide_eq_true_eq]
  rfl

theorem usable_cons_of_eq {es : List MemorymapEntry} (h : e.length = 0) : usable (e :: es) = [] := by
  rw [usable, List.takeWhile_cons_of_neg (by simpa using h), List.filter_nil]

/-- **The scan.**  It frees the frames of the usable regions and counts each region in
full. -/
theorem scanMap_spec (map : List MemorymapEntry) : ∀ (s : State) (n : Nat),
    s.freeFrameCount = wrap32 n →
    (∀ f, Used (scanMap map s) f ↔ Used s f ∧ f ∉ allFrames (usable map)) ∧
      (scanMap map s).freeFrameCount =
        wrap32 (n + ((usable map).map fun e => (regionFrames e).card).sum) := by
  induction map with
  | nil =>
      exact fun s n h => ⟨fun f => by simp [scanMap, usable, allFrames],
        by simpa [usable, scanMap] using h⟩
  | cons e es ih =>
      intro s n h
      by_cases hlen : e.length = 0
      · rw [usable_cons_of_eq hlen, scanMap, if_pos hlen]
        exact ⟨fun f => by simp [allFrames], by simpa using h⟩
      · rw [scanMap_cons_usable hlen, usable_cons_of_ne hlen]
        by_cases htype : e.type = 1
        · rw [if_pos htype, if_pos htype]
          obtain ⟨h₁, h₂⟩ := ih (releaseRegion s e) _ (count_releaseRegion s e h)
          refine ⟨fun f => ?_, ?_⟩
          · rw [h₁, used_releaseRegion, allFrames, Finset.notMem_union, and_assoc]
          · rw [h₂, List.map_cons, List.sum_cons, Nat.add_assoc]
        · rw [if_neg htype, if_neg htype]
          exact ih s n h

/-- After `pmm_init` a frame is in use when it is protected or belongs to no usable
region. -/
theorem used_pmmInit_iff (hke : kernelEnd < 2 ^ 32) (hf : f < totalFrames) :
    Used (pmmInit map kernelEnd) f ↔ Protected kernelEnd f ∨ f ∉ allFrames (usable map) := by
  have hlow : wrap32 (0x100000 + 4095) / 4096 = 256 := rfl
  have hheap : wrap32 (0x400000 + 4095) / 4096 = 1024 := rfl
  have himage : wrap32 (kernelEnd - 0x100000 + 4095) = kernelEnd - 0x100000 + 4095 :=
    Nat.mod_eq_of_lt (by omega)
  have hscan := (scanMap_spec map allUsed 0 rfl).1 f
  rw [and_iff_right (used_allUsed f)] at hscan
  simp only [pmmInit]
  rw [used_reserveBlock hf (by rw [hheap]; omega), hheap]
  by_cases hspill : 0x100000 < kernelEnd
  · rw [if_pos hspill, used_reserveBlock hf (by rw [himage]; omega), himage,
      used_reserveBlock hf (by rw [hlow]; omega), hlow, hscan]
    unfold Protected
    by_cases hmem : f ∈ allFrames (usable map)
    · simp only [hmem, not_true_eq_false, false_or, or_false]
      omega
    · simp [hmem]
  · rw [if_neg hspill, used_reserveBlock hf (by rw [hlow]; omega), hlow, hscan]
    unfold Protected
    by_cases hmem : f ∈ allFrames (usable map)
    · simp only [hmem, not_true_eq_false, false_or, or_false]
      omega
    · simp [hmem]

theorem freeFrames_scanMap (map : List MemorymapEntry) :
    freeFrames (scanMap map allUsed) = allFrames (usable map) := by
  ext f
  rw [mem_freeFrames, (scanMap_spec map allUsed 0 rfl).1 f, and_iff_right (used_allUsed f), not_not,
    and_iff_right_iff_imp]
  intro hf
  obtain ⟨e, -, he⟩ := mem_allFrames.1 hf
  exact (mem_regionFrames.1 he).2.2

theorem card_allFrames_le (es : List MemorymapEntry) :
    (allFrames es).card ≤ (es.map fun e => (regionFrames e).card).sum := by
  induction es with
  | nil => exact le_refl _
  | cons e es ih =>
      rw [allFrames, List.map_cons, List.sum_cons]
      exact (Finset.card_union_le _ _).trans (Nat.add_le_add_left ih _)

/-- How often a frame is freed that is free already. -/
def freedAgain (map : List MemorymapEntry) : Nat :=
  ((usable map).map fun e => (regionFrames e).card).sum - (allFrames (usable map)).card

/-- The counter after `pmm_init`. -/
theorem excess_pmmInit (map : List MemorymapEntry) (kernelEnd : Nat) :
    Excess (pmmInit map kernelEnd) (freedAgain map) := by
  have hcount := (scanMap_spec map allUsed 0 rfl).2
  rw [Nat.zero_add] at hcount
  have hle := card_allFrames_le (usable map)
  rw [← freeFrames_scanMap] at hle
  have hscan := excess_of_sum hcount hle
  rw [freeFrames_scanMap] at hscan
  have hlow := hscan.reserveBlock 0 0x100000
  simp only [pmmInit]
  refine Excess.reserveBlock ?_ 0x400000 0x400000
  split
  · exact hlow.reserveBlock 0x100000 (kernelEnd - 0x100000)
  · exact hlow

/-! ## Free frames are usable memory -/

/-- The frames of a usable region are usable memory.  Only the first frame of a region
below 4 GB can stick out of it; of a region at or above 4 GB every frame does. -/
def Contained (map : List MemorymapEntry) (kernelEnd : Nat) (e : MemorymapEntry) : Prop :=
  if e.base.toNat < 2 ^ 32 then
    numFrames e = 0 ∨ Protected kernelEnd (e.base.toNat / 4096) ∨
      ∀ x, 4096 * (e.base.toNat / 4096) ≤ x → x < e.base.toNat → InRam map x
  else ∀ f ∈ regionFrames e, Protected kernelEnd f ∨ FrameInRam map f

/-- The counter stays a 32-bit number in every run. -/
theorem Reaches.count_lt {s : State} {out : List Nat} (h : Reaches map kernelEnd s out) :
    s.freeFrameCount < 2 ^ 32 := by
  have hexcess : ∃ k, Excess s k := by
    induction h with
    | init _ => exact ⟨_, excess_pmmInit map kernelEnd⟩
    | @alloc s s' out a _ hret ih =>
        obtain ⟨k, hk⟩ := ih
        have := hk.allocFrame
        rw [hret] at this
        exact ⟨k, this⟩
    | @free s s' out a _ _ hret ih =>
        obtain ⟨k, hk⟩ := ih
        rw [freeBlock] at hret
        split at hret
        · cases hret
        · rw [← Exec.ret.inj hret]
          exact ⟨_, hk.freeSteps _ _⟩
  obtain ⟨k, hk⟩ := hexcess
  rw [hk]
  exact Nat.mod_lt _ (by norm_num)


theorem mem_of_mem_usable (h : e ∈ usable map) : e ∈ map ∧ e.type = 1 := by
  obtain ⟨h₁, h₂⟩ := List.mem_filter.1 h
  exact ⟨(List.takeWhile_prefix _).subset h₁, by simpa using h₂⟩

/-- Behind the base of a region below 4 GB its frames lie in the region. -/
theorem inRam_of_base_le (he : e ∈ usable map) (hbase : e.base.toNat < 2 ^ 32)
    (hf : f ∈ regionFrames e) {x : Nat} (hx : x < 4096 * f + 4096) (hle : e.base.toNat ≤ x) :
    InRam map x := by
  obtain ⟨hmem, htype⟩ := mem_of_mem_usable he
  obtain ⟨-, hlt, -⟩ := mem_regionFrames.1 hf
  refine ⟨e, hmem, htype, hle, ?_⟩
  unfold startingFrameIndex numFrames wrap32 at hlt
  omega

theorem frameInRam_of_contained (he : e ∈ usable map) (hcont : Contained map kernelEnd e)
    (hf : f ∈ regionFrames e) (hp : ¬ Protected kernelEnd f) : FrameInRam map f := by
  unfold Contained at hcont
  split at hcont
  · rename_i hbase
    obtain ⟨hle, hlt, -⟩ := mem_regionFrames.1 hf
    have hstart : startingFrameIndex e = e.base.toNat / 4096 := by
      rw [startingFrameIndex, wrap32, Nat.mod_eq_of_lt hbase]
    intro x h₁ h₂
    by_cases hx : e.base.toNat ≤ x
    · exact inRam_of_base_le he hbase hf h₂ hx
    · -- only the first frame reaches in front of the base
      have hfirst : f = e.base.toNat / 4096 := by omega
      rcases hcont with hnum | hprot | hhead
      · omega
      · exact absurd (hfirst ▸ hprot) hp
      · exact hhead x (by omega) (by omega)
  · exact (hcont f hf).resolve_left hp

theorem contained_of_frameInRam
    (h : ∀ f ∈ regionFrames e, Protected kernelEnd f ∨ FrameInRam map f) :
    Contained map kernelEnd e := by
  unfold Contained
  split
  · rename_i hbase
    have hstart : startingFrameIndex e = e.base.toNat / 4096 := by
      rw [startingFrameIndex, wrap32, Nat.mod_eq_of_lt hbase]
    by_cases hnum : numFrames e = 0
    · exact Or.inl hnum
    · have hfirst : e.base.toNat / 4096 ∈ regionFrames e := by
        rw [mem_regionFrames]
        have := startingFrameIndex_lt e
        omega
      rcases h _ hfirst with hprot | hram
      · exact Or.inr (Or.inl hprot)
      · exact Or.inr (Or.inr fun x h₁ h₂ => hram x h₁ (by omega))
  · exact h

theorem not_inProtected (hp : ¬ Protected kernelEnd f) {x : Nat} (h₁ : 4096 * f ≤ x)
    (h₂ : x < 4096 * f + 4096) : ¬ InProtected kernelEnd x := by
  unfold Protected at hp
  unfold InProtected
  omega

/-- **What `pmm_init` frees.**  Every free frame is usable memory outside the protected
ranges and the counter is the number of free frames exactly when the frames of every
usable region are usable memory, and no frame is freed twice (up to a multiple of
2^32). -/
theorem init_frees_usable_iff (map : List MemorymapEntry) (kernelEnd : UInt32) :
    ((∀ f, f < totalFrames → isFrameFree (pmmInit map kernelEnd.toNat) f = true →
        ∀ x, 4096 * f ≤ x → x < 4096 * f + 4096 →
          InRam map x ∧ ¬ InProtected kernelEnd.toNat x) ∧
      Counted (pmmInit map kernelEnd.toNat)) ↔
    (∀ e ∈ usable map, Contained map kernelEnd.toNat e) ∧ freedAgain map % 2 ^ 32 = 0 := by
  have hke : kernelEnd.toNat < 2 ^ 32 := kernelEnd.toNat_lt
  have hfree : ∀ f, f < totalFrames → (isFrameFree (pmmInit map kernelEnd.toNat) f = true ↔
      ¬ Protected kernelEnd.toNat f ∧ f ∈ allFrames (usable map)) := by
    intro f hf
    rw [isFrameFree_iff hf, used_pmmInit_iff hke hf, not_or, not_not]
  rw [(excess_pmmInit map kernelEnd.toNat).counted_iff]
  refine and_congr_left' ⟨fun h e he => ?_, fun h f hf hff x h₁ h₂ => ?_⟩
  · refine contained_of_frameInRam fun f hf => ?_
    by_cases hp : Protected kernelEnd.toNat f
    · exact Or.inl hp
    · have hlt := (mem_regionFrames.1 hf).2.2
      exact Or.inr fun x h₁ h₂ =>
        (h f hlt ((hfree f hlt).2 ⟨hp, mem_allFrames.2 ⟨e, he, hf⟩⟩) x h₁ h₂).1
  · obtain ⟨hp, hmem⟩ := (hfree f hf).1 hff
    obtain ⟨e, he, hfe⟩ := mem_allFrames.1 hmem
    exact ⟨frameInRam_of_contained he (h e he) hfe hp x h₁ h₂, not_inProtected hp h₁ h₂⟩

/-- A region of one page that begins in the middle of a frame: the frame is freed
although its first half is no usable memory. -/
theorem init_frees_half_frame :
    isFrameFree (pmmInit [⟨0x800800, 0x1000, 1⟩] 0x30000) 2048 = true ∧
      ¬ InRam [⟨0x800800, 0x1000, 1⟩] (4096 * 2048) := by
  constructor
  · rw [isFrameFree_iff (by decide), used_pmmInit_iff (by decide) (by decide)]
    have hmem : 2048 ∈ allFrames (usable [⟨0x800800, 0x1000, 1⟩]) :=
      mem_allFrames.2 ⟨⟨0x800800, 0x1000, 1⟩, by decide, mem_regionFrames.2 (by decide)⟩
    unfold Protected
    simp [hmem]
  · rintro ⟨e, he, -, hle, -⟩
    rw [List.mem_singleton.1 he] at hle
    exact absurd hle (by decide)

end BenmoshOS.Pmm
