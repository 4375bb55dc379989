import BenmoshOS.Heap.Canonical

/-!
# The kernel heap: which requests get what they ask for

`kmalloc` rounds the request up to a multiple of four and `kmalloc_aligned` adds the alignment
and a pointer, both in 32-bit arithmetic and before anything is compared.  This file says for
which requests the callers get what they asked for.

* `requests_served_iff` — a block is as large as requested exactly when the sum did not wrap,
  or when even the wrapped request finds no block.
* `freeable_iff` — a pointer can be freed exactly when its request was not rounded to zero, or
  the block it was given was too small to be split.
* `aligned_round_trip` — aligned blocks are aligned, lie in their raw blocks, and
  `kfree_aligned` frees these.
-/

namespace BenmoshOS.Heap

open Exec

/-! ## Sizes -/

/-- A free block is large enough for the request as `kmalloc` rounds it. -/
def Fits (m : Mem) (n : Nat) : Prop :=
  ∃ bs, BlockList m heapStart bs ∧ ∃ b ∈ bs, b.free = true ∧ roundUp4 n ≤ b.size

theorem Layout.fits_iff {m : Mem} {bs : List Block} {live : Finset Nat} (h : Layout m bs live)
    {n : Nat} : Fits m n ↔ ∃ b ∈ bs, b.free = true ∧ roundUp4 n ≤ b.size := by
  constructor
  · rintro ⟨cs, hcs, hb⟩
    rwa [← hcs.unique h.blockList]
  · exact fun hb => ⟨bs, h.blockList, hb⟩

/-- A returning `kmalloc` gives a pointer exactly when a free block is large enough. -/
theorem Holds.kmalloc_ne_zero_iff {m m' : Mem} {live : Finset Nat} (h : Holds m live)
    {n p fuel : Nat} (hret : kmalloc fuel m n = .ret (m', p)) : p ≠ 0 ↔ Fits m n := by
  obtain ⟨bs, hbs⟩ := h
  have hret' := kmalloc_mono hret (Nat.le_max_left fuel (bs.length + 1))
  rw [hbs.fits_iff]
  rcases kmalloc_spec hbs n (Nat.le_max_right fuel (bs.length + 1)) with ⟨hnone, hsmall⟩ |
    ⟨pre, b, post, rfl, hb, hfit, -, hsome, -⟩
  · obtain ⟨-, rfl⟩ := Prod.mk.inj (ret.inj (hret'.symm.trans hnone))
    refine iff_of_false (by simp) ?_
    rintro ⟨b, hb, hbf, hfit⟩
    have := hsmall b hb hbf
    omega
  · obtain ⟨-, rfl⟩ := Prod.mk.inj (ret.inj (hret'.symm.trans hsome))
    exact iff_of_true (by omega) ⟨b, by simp, hb, hfit⟩

/-- `kmalloc(n)` returns no block with fewer than `n` bytes. -/
def KmallocServes (m : Mem) (n : Nat) : Prop :=
  ∀ fuel m' p, kmalloc fuel m n = .ret (m', p) → p ≠ 0 → n ≤ payloadSize m' p

/-- `kmalloc_aligned(n, alignment)` returns no address whose `n` bytes reach out of the block
obtained from `kmalloc`. -/
def KmallocAlignedServes (m : Mem) (n alignment : Nat) : Prop :=
  ∀ fuel m' p, kmallocAligned fuel m n alignment = .ret (m', p) → p ≠ 0 →
    ∃ m₁ raw, kmalloc fuel m (wrap32 (n + wrap32 (alignment + 4))) = .ret (m₁, raw) ∧ raw ≠ 0 ∧
      raw ≤ p ∧ p + n ≤ raw + payloadSize m₁ raw

theorem roundUp4_of_gt {n : Nat} (h : 0xFFFFFFFC < n) (hn : n < 2 ^ 32) : roundUp4 n = 0 := by
  unfold roundUp4 wrap32
  split
  · omega
  · omega

/-- `kmalloc` serves a request that is not rounded to zero, and one that finds no block. -/
theorem kmallocServes_iff {m : Mem} {live : Finset Nat} (h : Holds m live) {n : Nat}
    (hn : n < 2 ^ 32) : KmallocServes m n ↔ n ≤ 0xFFFFFFFC ∨ ¬ Fits m n := by
  constructor
  · intro hserves
    by_contra hbad
    push Not at hbad
    obtain ⟨r, hret, hspec⟩ := (kmalloc_safe h n (maxBlocks + 1)).returns (Nat.lt_succ_self _)
    obtain ⟨m', p⟩ := r
    have hp := (h.kmalloc_ne_zero_iff hret).2 hbad.2
    rcases hspec with ⟨hz, -⟩ | ⟨-, -, hholds, -⟩
    · exact hp hz
    · have hroom := hserves _ m' p hret hp
      obtain ⟨-, -, hend⟩ := hholds.inside (Finset.mem_insert_self p live)
      have hheap : heapEnd = 0x800000 := rfl
      simp only at hend
      omega
  · rintro hgood fuel m' p hret hp
    rcases hgood with hle | hfits
    · rcases h.kmalloc_cases hret with ⟨hz, -⟩ | ⟨-, -, -, hroom, -⟩
      · exact absurd hz hp
      · have := roundUp4_of_le hle
        simp only at hroom
        omega
    · exact absurd ((h.kmalloc_ne_zero_iff hret).1 hp) hfits

/-! ## Aligned requests -/

/-- The request that `kmalloc_aligned` passes on. -/
def alignedRequest (size alignment : Nat) : Nat := wrap32 (size + wrap32 (alignment + 4))

/-- An alignment that is not rejected is a power of two of 32 bits. -/
theorem badAlignment_false {alignment : Nat} (h : badAlignment alignment = false)
    (hlt : alignment < 2 ^ 32) : 0 < alignment ∧ alignment ≤ 2 ^ 31 := by
  obtain ⟨hpos, hpow⟩ : alignment ≠ 0 ∧ alignment &&& (alignment - 1) = 0 := by
    simpa [badAlignment] using h
  refine ⟨Nat.pos_of_ne_zero hpos, ?_⟩
  by_contra hgt
  -- bit 31 would be set in the number and in its predecessor
  have hbit : (alignment &&& (alignment - 1)).testBit 31 = true := by
    rw [Nat.testBit_and, Nat.testBit_eq_decide_div_mod_eq, Nat.testBit_eq_decide_div_mod_eq]
    simp only [Bool.and_eq_true, decide_eq_true_eq]
    omega
  rw [hpow] at hbit
  exact absurd hbit (by simp)

/-- What `kmalloc_aligned` does, after the alignment has been accepted. -/
theorem kmallocAligned_eq {alignment : Nat} (h : badAlignment alignment = false) (fuel : Nat)
    (m : Mem) (size : Nat) : kmallocAligned fuel m size alignment =
      kmalloc fuel m (alignedRequest size alignment) >>= fun r =>
        if r.2 = 0 then .ret (r.1, 0)
        else .ret (store r.1 (wrap32 (alignAddr r.2 alignment + 2 ^ 32 - 4)) r.2,
          alignAddr r.2 alignment) := by
  unfold kmallocAligned
  simp only [h, Bool.false_eq_true, if_false]
  rfl

theorem kmallocAligned_ret {alignment : Nat} (h : badAlignment alignment = false) {fuel : Nat}
    {m m' : Mem} {size p : Nat} (hret : kmallocAligned fuel m size alignment = .ret (m', p))
    (hp : p ≠ 0) : ∃ m₁ raw, kmalloc fuel m (alignedRequest size alignment) = .ret (m₁, raw) ∧
      raw ≠ 0 ∧ p = alignAddr raw alignment ∧
      m' = store m₁ (wrap32 (alignAddr raw alignment + 2 ^ 32 - 4)) raw := by
  rw [kmallocAligned_eq h] at hret
  obtain ⟨⟨m₁, raw⟩, hraw, hret⟩ := bind_eq_ret.1 hret
  by_cases hz : raw = 0
  · rw [if_pos hz] at hret
    exact absurd (Prod.mk.inj (ret.inj hret)).2.symm hp
  · rw [if_neg hz] at hret
    obtain ⟨rfl, rfl⟩ := Prod.mk.inj (ret.inj hret)
    exact ⟨m₁, raw, hraw, hz, rfl, rfl⟩

/-- `kmalloc_aligned` serves a request whose sum does not wrap, and one that finds no block. -/
theorem kmallocAlignedServes_iff {m : Mem} {live : Finset Nat} (h : Holds m live)
    {n alignment : Nat} (hn : n < 2 ^ 32) (ha : alignment < 2 ^ 32) :
    KmallocAlignedServes m n alignment ↔ badAlignment alignment = true ∨
      n + alignment + 4 ≤ 0xFFFFFFFC ∨ ¬ Fits m (alignedRequest n alignment) := by
  cases hbad : badAlignment alignment with
  | true =>
      refine iff_of_true (fun fuel m' p hret hp => ?_) (Or.inl rfl)
      unfold kmallocAligned at hret
      simp only [hbad, if_true] at hret
      exact absurd (Prod.mk.inj (ret.inj hret)).2.symm hp
  | false =>
      obtain ⟨hpos, hle⟩ := badAlignment_false hbad ha
      simp only [Bool.false_eq_true, false_or]
      have hheap : heapEnd = 0x800000 := rfl
      have hreq : n + alignment + 4 ≤ 0xFFFFFFFC → alignedRequest n alignment = n + alignment + 4 := by
        intro hsum
        unfold alignedRequest wrap32
        omega
      constructor
      · intro hserves
        by_contra hno
        push Not at hno
        obtain ⟨⟨m₁, raw⟩, hret, -⟩ := (kmalloc_safe h (alignedRequest n alignment)
          (maxBlocks + 1)).returns (Nat.lt_succ_self _)
        have hraw := (h.kmalloc_ne_zero_iff hret).2 hno.2
        rcases h.kmalloc_cases hret with ⟨hz, -⟩ | ⟨-, -, hholds, -⟩
        · exact hraw hz
        obtain ⟨-, hlo, hhi⟩ := hholds.inside (Finset.mem_insert_self raw live)
        have hbounds := alignAddr_bounds raw hpos (by simp only at hhi; omega)
        have hrun : kmallocAligned (maxBlocks + 1) m n alignment =
            .ret (store m₁ (wrap32 (alignAddr raw alignment + 2 ^ 32 - 4)) raw,
              alignAddr raw alignment) := by
          rw [kmallocAligned_eq hbad, hret, ret_bind, if_neg hraw]
        obtain ⟨m₂, raw', hret', -, -, hroom⟩ := hserves _ _ _ hrun (by omega)
        obtain ⟨rfl, rfl⟩ := Prod.mk.inj (ret.inj (hret.symm.trans hret'))
        -- `n` is larger than the heap, or the rounded request is zero
        simp only at hhi hlo
        omega
      · rintro hgood fuel m' p hret hp
        obtain ⟨m₁, raw, hraw, hz, rfl, -⟩ := kmallocAligned_ret hbad hret hp
        refine ⟨m₁, raw, hraw, hz, ?_⟩
        rcases hgood with hsum | hfits
        · rcases h.kmalloc_cases hraw with ⟨hz', -⟩ | ⟨-, -, hholds, hroom, -⟩
          · exact absurd hz' hz
          obtain ⟨-, hlo, hhi⟩ := hholds.inside (Finset.mem_insert_self raw live)
          have hbounds := alignAddr_bounds raw hpos (by simp only at hhi; omega)
          have hround := roundUp4_of_le hsum
          rw [hreq hsum] at hroom
          simp only at hroom hhi hlo
          exact ⟨by omega, by omega⟩
        · exact absurd ((h.kmalloc_ne_zero_iff hraw).1 hz) hfits

/-- **Requests are served** exactly when their 32-bit sums do not wrap around, or when not even
the wrapped request finds a free block. -/
theorem requests_served_iff {m : Mem} {live : Finset Nat} (h : Reaches m live) {n : Nat}
    (hn : n < 2 ^ 32) :
    (KmallocServes m n ↔ n ≤ 0xFFFFFFFC ∨ ¬ Fits m n) ∧
      ∀ alignment < 2 ^ 32, (KmallocAlignedServes m n alignment ↔ badAlignment alignment = true ∨
        n + alignment + 4 ≤ 0xFFFFFFFC ∨ ¬ Fits m (alignedRequest n alignment)) :=
  ⟨kmallocServes_iff h.holds hn, fun _ ha => kmallocAlignedServes_iff h.holds hn ha⟩

/-- A page-aligned page, requested from a new heap. -/
theorem requests_served_iff_page :
    KmallocServes (heapInit fun _ => 0) 4096 ∧
      KmallocAlignedServes (heapInit fun _ => 0) 4096 4096 := by
  obtain ⟨hplain, haligned⟩ := requests_served_iff (Reaches.init fun _ => 0) (n := 4096)
    (by norm_num)
  exact ⟨hplain.2 (Or.inl (by norm_num)),
    (haligned 4096 (by norm_num)).2 (Or.inr (Or.inl (by norm_num)))⟩

theorem fits_heapInit {n : Nat} (h : roundUp4 n ≤ heapSize - 8) : Fits (heapInit fun _ => 0) n :=
  (layout_heapInit fun _ => 0).fits_iff.2 ⟨_, List.mem_singleton_self _, rfl, h⟩

/-- `kmalloc(0xFFFFFFFF)` and `kmalloc_aligned(0xFFFFFFF0, 16)` succeed on a new heap. -/
theorem wrapped_requests_succeed :
    ¬ KmallocServes (heapInit fun _ => 0) 0xFFFFFFFF ∧
      ¬ KmallocAlignedServes (heapInit fun _ => 0) 0xFFFFFFF0 16 := by
  have hholds : Holds (heapInit fun _ => 0) ∅ := ⟨_, layout_heapInit _⟩
  constructor
  · intro hserves
    rcases (kmallocServes_iff hholds (by norm_num)).1 hserves with hle | hfits
    · exact absurd hle (by norm_num)
    · exact hfits (fits_heapInit (by decide))
  · intro hserves
    rcases (kmallocAlignedServes_iff hholds (by norm_num) (by norm_num)).1 hserves with
      hbad | hle | hfits
    · exact absurd hbad (by decide)
    · exact absurd hle (by norm_num)
    · exact hfits (fits_heapInit (by decide))

/-! ## Pointers that can be freed -/

/-- Free blocks are not empty. -/
def FreeNonempty (bs : List Block) : Prop := ∀ b ∈ bs, b.free = true → b.size ≠ 0

/-- The blocks after the backward merge: the old ones, the freed one, and what it was merged
into. -/
theorem mem_mergeBackward_cases {pre post : List Block} {c d : Block}
    (hc : c ∈ mergeBackward pre d post) :
    c ∈ pre ∨ c = d ∨ c ∈ post ∨ d.size + 8 ≤ c.size := by
  induction pre with
  | nil =>
      rcases List.mem_cons.1 hc with hc | hc
      · exact Or.inr (Or.inl hc)
      · exact Or.inr (Or.inr (Or.inl hc))
  | cons q pre ih =>
      cases pre with
      | nil =>
          rw [mergeBackward] at hc
          by_cases hq : q.free = true
          · rw [if_pos hq] at hc
            rcases List.mem_cons.1 hc with rfl | hc
            · exact Or.inr (Or.inr (Or.inr (by simp only [Block.merge]; omega)))
            · exact Or.inr (Or.inr (Or.inl hc))
          · rw [if_neg hq] at hc
            rcases List.mem_cons.1 hc with hc | hc
            · exact Or.inl (by simp [hc])
            · rcases List.mem_cons.1 hc with hc | hc
              · exact Or.inr (Or.inl hc)
              · exact Or.inr (Or.inr (Or.inl hc))
      | cons r pre =>
          rw [mergeBackward] at hc
          rcases List.mem_cons.1 hc with hc | hc
          · exact Or.inl (by simp [hc])
          · rcases ih hc with hc | hc
            · exact Or.inl (List.mem_cons_of_mem _ hc)
            · exact Or.inr hc

theorem mergeForward_size (b : Block) (post : List Block) :
    b.size ≤ (mergeForward b post).1.size ∧ ∀ c ∈ (mergeForward b post).2, c ∈ post := by
  cases post with
  | nil => exact ⟨le_refl _, fun _ h => h⟩
  | cons c post =>
      rw [mergeForward]
      by_cases hc : c.free = true
      · rw [if_pos hc]
        exact ⟨by simp only [Block.merge]; omega, fun _ h => List.mem_cons_of_mem _ h⟩
      · rw [if_neg hc]
        exact ⟨le_refl _, fun _ h => h⟩

theorem FreeNonempty.released {pre post : List Block} {b : Block}
    (h : FreeNonempty (pre ++ b :: post)) (hb : b.size ≠ 0) :
    FreeNonempty (released pre b post) := by
  intro c hc hcf
  obtain ⟨hsize, hpost⟩ := mergeForward_size b post
  rcases mem_mergeBackward_cases hc with hc | hc | hc | hc
  · exact h c (by simp [hc]) hcf
  · rw [hc]
    omega
  · exact h c (by simp [hpost c hc]) hcf
  · omega

theorem FreeNonempty.carve {pre post : List Block} {b : Block}
    (h : FreeNonempty (pre ++ b :: post)) (req : Nat) :
    FreeNonempty (pre ++ (carve b req ++ post)) := by
  intro c hc hcf
  rcases List.mem_append.1 hc with hc | hc
  · exact h c (by simp [hc]) hcf
  · rcases List.mem_append.1 hc with hc | hc
    · unfold Heap.carve at hc
      split at hc
      · rcases List.mem_pair.1 hc with rfl | rfl
        · exact absurd hcf (by simp)
        · simp only
          omega
      · rw [List.mem_singleton.1 hc] at hcf
        exact absurd hcf (by simp)
    · exact h c (by simp [hc]) hcf

/-- In every state of a run the free blocks have a payload. -/
theorem Reaches.freeNonempty {m : Mem} {live : Finset Nat} (h : Reaches m live) :
    ∃ bs, Layout m bs live ∧ FreeNonempty bs := by
  induction h with
  | init m => exact ⟨_, layout_heapInit m, by simp [FreeNonempty, heapSize]⟩
  | @kmalloc m m' live fuel n p _ hn hret ih =>
      obtain ⟨bs, hbs, hfree⟩ := ih
      have hret' := kmalloc_mono hret (Nat.le_max_left fuel (bs.length + 1))
      rcases kmalloc_spec hbs n (Nat.le_max_right fuel (bs.length + 1)) with ⟨hnone, -⟩ |
        ⟨pre, b, post, rfl, -, -, -, hsome, hlay⟩
      · obtain ⟨rfl, rfl⟩ := Prod.mk.inj (ret.inj (hret'.symm.trans hnone))
        exact ⟨bs, hbs, hfree⟩
      · obtain ⟨rfl, rfl⟩ := Prod.mk.inj (ret.inj (hret'.symm.trans hsome))
        exact ⟨_, by simpa using hlay, hfree.carve _⟩
  | @kfree m m' live fuel p _ hp hret ih =>
      obtain ⟨bs, hbs, hfree⟩ := ih
      have hret' := kfree_mono hret (Nat.le_max_left fuel bs.length)
      obtain ⟨pre, b, post, rfl, -, -, ⟨-, hpanic⟩ | ⟨hsize, m'', hret'', hlay, -⟩⟩ :=
        kfree_spec hbs hp (Nat.le_max_right fuel bs.length)
      · exact absurd (hret'.symm.trans hpanic) (by simp)
      · obtain rfl := ret.inj (hret'.symm.trans hret'')
        exact ⟨_, hlay, hfree.released hsize⟩
  | @write m live p a v _ hp h₁ h₂ ih =>
      obtain ⟨bs, hbs, hfree⟩ := ih
      exact ⟨bs, hbs.write v hp h₁ (by omega), hfree⟩

/-- The states reached from a state by calls that neither free `p` nor write its payload. -/
inductive Since (p : Nat) (m₁ : Mem) (live₁ : Finset Nat) : Mem → Finset Nat → Prop
  | refl : Since p m₁ live₁ m₁ live₁
  | kmalloc {m m' : Mem} {live : Finset Nat} {fuel n q : Nat} : Since p m₁ live₁ m live →
      n < 2 ^ 32 → kmalloc fuel m n = .ret (m', q) →
      Since p m₁ live₁ m' (if q = 0 then live else insert q live)
  | kfree {m m' : Mem} {live : Finset Nat} {fuel q : Nat} : Since p m₁ live₁ m live →
      q ∈ live → q ≠ p → kfree fuel m q = .ret m' → Since p m₁ live₁ m' (live.erase q)
  | write {m : Mem} {live : Finset Nat} {q a v : Nat} : Since p m₁ live₁ m live → q ∈ live →
      q ≠ p → q ≤ a → a + 4 ≤ q + payloadSize m q → Since p m₁ live₁ (store m a v) live

/-- Such calls leave the block of `p` alone. -/
theorem Since.keeps {p : Nat} {m₁ m : Mem} {live₁ live : Finset Nat}
    (h : Since p m₁ live₁ m live) (hholds : Holds m₁ live₁) (hp : p ∈ live₁) :
    Holds m live ∧ p ∈ live ∧ KeepsPayload m₁ m p := by
  induction h with
  | refl => exact ⟨hholds, hp, KeepsPayload.refl m₁ p⟩
  | @kmalloc m m' live fuel n q _ hn hret ih =>
      obtain ⟨hm, hlive, hkeep⟩ := ih
      rcases hm.kmalloc_cases hret with ⟨hq, rfl⟩ | ⟨hq, -, hm', -, hkeep', -⟩
      · simp only at hq
        rw [if_pos hq]
        exact ⟨hm, hlive, hkeep⟩
      · simp only at hq hm' hkeep'
        rw [if_neg hq]
        exact ⟨hm', Finset.mem_insert_of_mem hlive, hkeep.trans (hkeep' p hlive)⟩
  | @kfree m m' live fuel q _ hq hne hret ih =>
      obtain ⟨hm, hlive, hkeep⟩ := ih
      obtain ⟨-, hm', hkeep', -⟩ := hm.kfree_cases hq hret
      exact ⟨hm', Finset.mem_erase.2 ⟨hne.symm, hlive⟩, hkeep.trans (hkeep' p hlive hne.symm)⟩
  | @write m live q a v _ hq hne h₁ h₂ ih =>
      obtain ⟨hm, hlive, hkeep⟩ := ih
      obtain ⟨hm', hkeep', -⟩ := hm.write v hq h₁ (by omega)
      exact ⟨hm', hlive, hkeep.trans (hkeep' p hlive hne.symm)⟩

/-- `kfree` of a live pointer panics exactly when its block is empty. -/
theorem Holds.kfree_panics_iff {m : Mem} {live : Finset Nat} (h : Holds m live) {p : Nat}
    (hp : p ∈ live) : (∀ fuel q, kfree fuel m p ≠ .panic q) ↔ payloadSize m p ≠ 0 := by
  constructor
  · intro hcalm hzero
    obtain ⟨bs, hbs⟩ := h
    obtain ⟨pre, b, post, rfl, -, rfl, ⟨-, hpanic⟩ | ⟨hsize, -⟩⟩ := kfree_spec hbs hp (le_refl _)
    · exact hcalm _ _ hpanic
    · rw [hbs.payloadSize_eq (by simp)] at hzero
      exact hsize hzero
  · exact fun hsize fuel q => (kfree_safe h hp hsize fuel).ne_panic q

/-- The first free block of the heap is too small to be split. -/
def FirstFreeSmall (m : Mem) : Prop :=
  ∃ pre b post, BlockList m heapStart (pre ++ b :: post) ∧ (∀ c ∈ pre, c.free = false) ∧
    b.free = true ∧ b.size < 24

theorem roundUp4_eq_zero_iff {n : Nat} (hn : n < 2 ^ 32) : roundUp4 n = 0 ↔ ¬ Proper n := by
  unfold Proper
  constructor
  · intro hz hproper
    have := roundUp4_of_le hproper.2
    omega
  · intro hproper
    by_cases hle : n ≤ 0xFFFFFFFC
    · obtain rfl : n = 0 := by
        by_contra hpos
        exact hproper ⟨by omega, hle⟩
      rfl
    · exact roundUp4_of_gt (by omega) hn

/-- Two lists that agree up to their first free blocks. -/
theorem first_free_unique {pre pre' post post' : List Block} {b b' : Block}
    (h : pre ++ b :: post = pre' ++ b' :: post') (hpre : ∀ c ∈ pre, c.free = false)
    (hpre' : ∀ c ∈ pre', c.free = false) (hb : b.free = true) (hb' : b'.free = true) : b = b' := by
  have hfind : ∀ {pre : List Block} (post : List Block) {b : Block},
      (∀ c ∈ pre, c.free = false) → b.free = true →
      (pre ++ b :: post).find? (·.free) = some b := by
    intro pre post b hpre hb
    rw [List.find?_append, List.find?_eq_none.2 fun c hc => by simp [hpre c hc], Option.none_or,
      List.find?_cons_of_pos hb]
  have hfirst := hfind post hpre hb
  rw [h, hfind post' hpre' hb'] at hfirst
  exact (Option.some.inj hfirst).symm

/-- The payload that `kmalloc` returns is empty when an improper request has split its block. -/
theorem payloadSize_kmalloc {m m' : Mem} {live : Finset Nat} (h : Reaches m live)
    {n p fuel : Nat} (hn : n < 2 ^ 32) (hret : kmalloc fuel m n = .ret (m', p)) (hp : p ≠ 0) :
    payloadSize m' p ≠ 0 ↔ Proper n ∨ FirstFreeSmall m := by
  obtain ⟨bs, hbs, hfree⟩ := h.freeNonempty
  have hret' := kmalloc_mono hret (Nat.le_max_left fuel (bs.length + 1))
  rcases kmalloc_spec hbs n (Nat.le_max_right fuel (bs.length + 1)) with ⟨hnone, -⟩ |
    ⟨pre, b, post, rfl, hb, hfit, hpre, hsome, hlay⟩
  · exact absurd (Prod.mk.inj (ret.inj (hret'.symm.trans hnone))).2 hp
  obtain ⟨rfl, rfl⟩ := Prod.mk.inj (ret.inj (hret'.symm.trans hsome))
  have hsize := hfree b (by simp) hb
  have hpayload : payloadSize (takeBlock m b.addr (roundUp4 n)) (b.addr + 8) =
      if 24 ≤ b.size - roundUp4 n then roundUp4 n else b.size := by
    have hmem : ∃ c ∈ carve b (roundUp4 n), c.addr = b.addr ∧
        c.size = if 24 ≤ b.size - roundUp4 n then roundUp4 n else b.size := by
      unfold carve
      split
      · exact ⟨⟨b.addr, roundUp4 n, false⟩, by simp, rfl, rfl⟩
      · exact ⟨⟨b.addr, b.size, false⟩, by simp, rfl, rfl⟩
    obtain ⟨c, hc, hca, hcs⟩ := hmem
    have := hlay.payloadSize_eq (b := c) (by simp [hc])
    rwa [hca, hcs] at this
  rw [hpayload]
  by_cases hproper : Proper n
  · have hround : roundUp4 n ≠ 0 := fun hz => (roundUp4_eq_zero_iff hn).1 hz hproper
    refine iff_of_true ?_ (Or.inl hproper)
    split
    · exact hround
    · exact hsize
  · have hround := (roundUp4_eq_zero_iff hn).2 hproper
    -- every free block is large enough for an empty request
    have hused : ∀ c ∈ pre, c.free = false := fun c hc => by
      by_contra hcf
      have := hpre c hc (by simpa using hcf)
      omega
    rw [hround, Nat.sub_zero, or_iff_right hproper]
    constructor
    · intro hne
      refine ⟨pre, b, post, hbs.blockList, hused, hb, ?_⟩
      by_contra hge
      rw [if_pos (by omega)] at hne
      exact hne rfl
    · rintro ⟨pre', b', post', hlist, hused', hb', hsmall⟩
      obtain rfl := first_free_unique (hbs.blockList.unique hlist) hused hused' hb hb'
      rw [if_neg (by omega)]
      exact hsize

/-- **Pointers that can be freed.**  Whatever calls come in between, `kfree` of a pointer that
`kmalloc(n)` has returned does not panic exactly when the request was not rounded to zero, or
the first free block was too small to be split. -/
theorem freeable_iff {m m₁ m₂ : Mem} {live live₂ : Finset Nat} (h : Reaches m live)
    {n p fuel : Nat} (hn : n < 2 ^ 32) (hret : kmalloc fuel m n = .ret (m₁, p)) (hp : p ≠ 0)
    (hsince : Since p m₁ (insert p live) m₂ live₂) :
    (∀ fuel q, kfree fuel m₂ p ≠ .panic q) ↔ Proper n ∨ FirstFreeSmall m := by
  rcases h.holds.kmalloc_cases hret with ⟨hz, -⟩ | ⟨-, -, hholds, -⟩
  · exact absurd hz hp
  obtain ⟨hm₂, hlive₂, hkeep⟩ := hsince.keeps hholds (Finset.mem_insert_self p live)
  rw [hm₂.kfree_panics_iff hlive₂, hkeep.1]
  exact payloadSize_kmalloc h hn hret hp

/-- A block of 44 bytes can be freed. -/
theorem freeable_iff_pcb :
    kmalloc 1 (heapInit fun _ => 0) 44 =
        .ret (takeBlock (heapInit fun _ => 0) 0x400000 44, 0x400008) ∧
      ∀ fuel q, kfree fuel (takeBlock (heapInit fun _ => 0) 0x400000 44) 0x400008 ≠ .panic q := by
  have hret : kmalloc 1 (heapInit fun _ => 0) 44 =
      .ret (takeBlock (heapInit fun _ => 0) 0x400000 44, 0x400008) := rfl
  refine ⟨hret, ?_⟩
  exact (freeable_iff (Reaches.init fun _ => 0) (by norm_num) hret (by norm_num) .refl).2
    (Or.inl ⟨by norm_num, by norm_num⟩)

/-- `kfree(kmalloc(0))` panics on a new heap. -/
theorem empty_block_cannot_be_freed :
    kmalloc 1 (heapInit fun _ => 0) 0 = .ret (takeBlock (heapInit fun _ => 0) 0x400000 0, 0x400008) ∧
      kfree 2 (takeBlock (heapInit fun _ => 0) 0x400000 0) 0x400008 =
        .panic (corruptedHeader 0x400008) :=
  ⟨rfl, rfl⟩

/-! ## Aligned blocks -/

theorem badAlignment_two_pow (k : Nat) : badAlignment (2 ^ k) = false := by
  have hpos : 2 ^ k ≠ 0 := by positivity
  have hand : 2 ^ k &&& (2 ^ k - 1) = 0 := by
    rw [Nat.and_two_pow_sub_one_eq_mod, Nat.mod_self]
  simp [badAlignment, hand]

/-- What a successful `kmalloc_aligned` leaves behind, for a sum that does not wrap. -/
theorem kmallocAligned_allocates {m m₁ : Mem} {live : Finset Nat} (h : Holds m live)
    {size alignment p fuel : Nat} (hbad : badAlignment alignment = false)
    (hsum : size + alignment + 4 ≤ 0xFFFFFFFC)
    (hret : kmallocAligned fuel m size alignment = .ret (m₁, p)) (hp : p ≠ 0) :
    ∃ raw, raw ∉ live ∧ Holds m₁ (insert raw live) ∧ AlignedIn m₁ raw size alignment p ∧
      ∀ q ∈ live, KeepsPayload m m₁ q := by
  obtain ⟨hpos, -⟩ := badAlignment_false hbad (by omega)
  obtain ⟨m₀, raw, hraw, hz, rfl, rfl⟩ := kmallocAligned_ret hbad hret hp
  have hreq : alignedRequest size alignment = size + alignment + 4 := by
    unfold alignedRequest wrap32
    omega
  rcases h.kmalloc_cases hraw with ⟨hz', -⟩ | ⟨-, hfresh, hholds, hroom, hkeep, -⟩
  · exact absurd hz' hz
  simp only at hfresh hholds hroom hkeep
  rw [hreq] at hroom
  have hmem : raw ∈ insert raw live := Finset.mem_insert_self _ _
  obtain ⟨-, hlo, hhi⟩ := hholds.inside hmem
  have hheap : heapEnd = 0x800000 := rfl
  have hround := roundUp4_of_le hsum
  obtain ⟨h₁, h₂, h₃⟩ := alignAddr_bounds raw hpos (by omega)
  have hslot : wrap32 (alignAddr raw alignment + 2 ^ 32 - 4) = alignAddr raw alignment - 4 := by
    unfold wrap32
    omega
  rw [hslot]
  obtain ⟨hw, hwkeep, hwsize⟩ := hholds.write raw hmem (a := alignAddr raw alignment - 4)
    (by omega) (by omega)
  refine ⟨raw, hfresh, hw, ⟨h₁, ?_, h₃, Function.update_self _ _ _⟩, fun q hq => ?_⟩
  · rw [hwsize]
    omega
  · exact (hkeep q hq).trans (hwkeep q (by simp [hq]) fun hqr => hfresh (hqr ▸ hq))

/-- `kfree_aligned` is `kfree` of the raw pointer. -/
theorem AlignedIn.kfreeAligned_eq {m : Mem} {live : Finset Nat} (h : Holds m live)
    {raw size alignment p : Nat} (hraw : raw ∈ live) (ha : AlignedIn m raw size alignment p)
    (fuel : Nat) : kfreeAligned fuel m p = kfree fuel m raw := by
  obtain ⟨-, hlo, hhi⟩ := h.inside hraw
  obtain ⟨h₁, h₂, -, h₄⟩ := ha
  have hheap : heapEnd = 0x800000 := rfl
  have hslot : wrap32 (p + 2 ^ 32 - 4) = p - 4 := by
    unfold wrap32
    omega
  rw [kfreeAligned, if_neg (by omega), hslot, h₄]

/-- **The round trip of an aligned block.**  The address is aligned and its bytes lie in the
payload of the raw pointer, which is stored in front of it.  After any calls that leave the
block alone, `kfree_aligned` frees the block of the raw pointer, and right after
`kmalloc_aligned` it restores the block list. -/
theorem aligned_round_trip {m m₁ : Mem} {live : Finset Nat} (h : Reaches m live)
    {size alignment p fuel : Nat} (hpow : ∃ k, alignment = 2 ^ k)
    (hsum : size + alignment + 4 ≤ 0xFFFFFFFC)
    (hret : kmallocAligned fuel m size alignment = .ret (m₁, p)) (hp : p ≠ 0) :
    ∃ raw, alignment ∣ p ∧ raw ≤ p - 4 ∧ p + size ≤ raw + payloadSize m₁ raw ∧ m₁ (p - 4) = raw ∧
      raw ∉ live ∧ Holds m₁ (insert raw live) ∧
      (∀ m₂ live₂, Since raw m₁ (insert raw live) m₂ live₂ → ∀ fuel', maxBlocks < fuel' →
        ∃ m₃, kfreeAligned fuel' m₂ p = .ret m₃ ∧ kfree fuel' m₂ raw = .ret m₃ ∧
          Freed m₂ live₂ raw m₃) ∧
      ∀ fuel', maxBlocks < fuel' → ∃ m₃ bs, kfreeAligned fuel' m₁ p = .ret m₃ ∧
        BlockList m heapStart bs ∧ BlockList m₃ heapStart bs := by
  obtain ⟨k, rfl⟩ := hpow
  obtain ⟨raw, hfresh, hholds, haligned, hkeep⟩ :=
    kmallocAligned_allocates h.holds (badAlignment_two_pow k) hsum hret hp
  have hmem : raw ∈ insert raw live := Finset.mem_insert_self _ _
  have hfree : ∀ m₂ live₂, Since raw m₁ (insert raw live) m₂ live₂ → ∀ fuel', maxBlocks < fuel' →
      ∃ m₃, kfreeAligned fuel' m₂ p = .ret m₃ ∧ kfree fuel' m₂ raw = .ret m₃ ∧
        Freed m₂ live₂ raw m₃ := by
    intro m₂ live₂ hsince fuel' hfuel
    obtain ⟨hm₂, hlive, hsame⟩ := hsince.keeps hholds hmem
    have haligned' := haligned.congr hsame
    have hsize : payloadSize m₂ raw ≠ 0 := by
      have := haligned'.above
      have := haligned'.room
      omega
    obtain ⟨m₃, hret₃, hfreed⟩ := (kfree_safe hm₂ hlive hsize fuel').returns hfuel
    exact ⟨m₃, by rw [haligned'.kfreeAligned_eq hm₂ hlive, hret₃], hret₃, hfreed⟩
  have habove := haligned.above
  refine ⟨raw, haligned.aligned, by omega, haligned.room, haligned.tracker, hfresh, hholds, hfree,
    fun fuel' hfuel => ?_⟩
  obtain ⟨m₃, hret₃, -, hholds₃, hkeep₃, -⟩ := hfree m₁ _ .refl fuel' hfuel
  rw [Finset.erase_insert hfresh] at hholds₃
  obtain ⟨bs, hbs, hbs₃, -⟩ := h.holds.sameHeap hholds₃ fun q hq =>
    (hkeep q hq).trans (hkeep₃ q (by simp [hq]) fun hqr => hfresh (hqr ▸ hq))
  exact ⟨m₃, bs, hret₃, hbs, hbs₃⟩

/-- A page-aligned block of 128 bytes, requested and released. -/
theorem aligned_round_trip_page : ∃ m₁ m₃ bs,
    kmallocAligned 1 (heapInit fun _ => 0) 128 4096 = .ret (m₁, 0x401000) ∧
      kfreeAligned (maxBlocks + 1) m₁ 0x401000 = .ret m₃ ∧
      BlockList (heapInit fun _ => 0) heapStart bs ∧ BlockList m₃ heapStart bs := by
  have hret : kmallocAligned 1 (heapInit fun _ => 0) 128 4096 =
      .ret (store (takeBlock (heapInit fun _ => 0) 0x400000 4228) 0x400FFC 0x400008, 0x401000) := rfl
  obtain ⟨raw, -, -, -, -, -, -, -, htrip⟩ := aligned_round_trip (Reaches.init fun _ => 0)
    ⟨12, by norm_num⟩ (by norm_num) hret (by norm_num)
  obtain ⟨m₃, bs, hret₃, hbs, hbs₃⟩ := htrip (maxBlocks + 1) (Nat.lt_succ_self _)
  exact ⟨_, m₃, bs, hret, hret₃, hbs, hbs₃⟩

end BenmoshOS.Heap
