import BenmoshOS.Heap.Canonical

/-!
# The kernel heap: freeing a pointer twice

`kfree` recognises a pointer that has been freed before by the free mark in the
word in front of it.  That word is still there when the block has been merged
into its neighbours, but then it lies in the middle of a free block, and a later
split may put another header over it.

* A new header that starts at the stale word marks it free again.
* A new header that starts one word earlier puts its `next` there: the address
  of the block behind it, which is even and not zero, or `NULL`, which `kfree`
  rejects as a corrupted header.

So a second `kfree` panics in every state of a run exactly when no block that
has a block behind it ever starts twelve bytes in front of the stale pointer
(`double_free_panics_iff`).  `overlaid_double_free` is a run of six calls in
which one does.
-/

namespace BenmoshOS.Heap

/-! ## The words a split writes -/

/-- Taking a block only writes words of the headers that are there afterwards. -/
theorem takeBlock_writes {m : Mem} {b : Block} {req : Nat} (h4 : 4 ∣ b.size)
    (hw : m b.addr = b.word) (hend : b.stop ≤ heapEnd) (hle : req ≤ b.size) (x : Nat) :
    takeBlock m b.addr req x = m x ∨ ∃ c ∈ carve b req, x = c.addr ∨ x = c.addr + 4 := by
  have hstop : b.stop = b.addr + 8 + b.size := rfl
  have hhe : heapEnd = 0x800000 := rfl
  have hwrap : wrap32 (b.addr + req + 8) = b.addr + 8 + req := by
    rw [wrap32, Nat.mod_eq_of_lt (by omega)]
    omega
  simp only [takeBlock, carve, hw, sizeOf_word h4, hwrap, store]
  split
  · by_cases hx : x = b.addr ∨ x = b.addr + 4 ∨ x = b.addr + 8 + req ∨ x = b.addr + 8 + req + 4
    · right
      rcases hx with hx | hx | hx | hx
      · exact ⟨_, List.mem_cons_self, Or.inl hx⟩
      · exact ⟨_, List.mem_cons_self, Or.inr hx⟩
      · exact ⟨_, List.mem_cons_of_mem _ List.mem_cons_self, Or.inl hx⟩
      · exact ⟨_, List.mem_cons_of_mem _ List.mem_cons_self, Or.inr hx⟩
    · left
      push Not at hx
      rw [Function.update_of_ne hx.2.1, Function.update_of_ne hx.1,
        Function.update_of_ne hx.2.2.2, Function.update_of_ne hx.2.2.1,
        Function.update_of_ne hx.1]
  · by_cases hx : x = b.addr
    · exact Or.inr ⟨_, List.mem_cons_self, Or.inl hx⟩
    · exact Or.inl (Function.update_of_ne hx _ _)

/-- The first word of the header of a block. -/
theorem Layout.word_eq {m : Mem} {bs : List Block} {live : Finset Nat} (h : Layout m bs live)
    {b : Block} (hb : b ∈ bs) : m b.addr = b.word := by
  obtain ⟨pre, post, rfl⟩ := List.append_of_mem hb
  obtain ⟨-, -, hw, -⟩ := seg_split.1 h.seg
  exact hw

/-! ## Stale headers -/

/-- The word in front of `p` is one that `kfree` rejects: it is marked free, or zero. -/
def Rejected (m : Mem) (p : Nat) : Prop := m (p - 8) % 2 = 1 ∨ m (p - 8) = 0

/-- A block that has a block behind it starts twelve bytes in front of `p`, so that its `next`
is the word in front of `p`. -/
def Overlaid (m : Mem) (p : Nat) : Prop :=
  ∃ bs, BlockList m heapStart bs ∧ ∃ b ∈ bs, b.addr + 12 = p ∧ next m b.addr ≠ 0

/-- Inside the heap, `kfree` panics exactly on rejected words. -/
theorem kfree_panics_iff_rejected {m : Mem} {p : Nat} (hlo : heapStart + 8 ≤ p)
    (hhi : p < heapEnd + 8) (fuel : Nat) :
    (∃ e, kfree fuel m p = .panic e) ↔ Rejected m p := by
  have hstart : heapStart = 0x400000 := rfl
  have hend : heapEnd = 0x800000 := rfl
  have hhdr : wrap32 (p + 2 ^ 32 - 8) = p - 8 := by
    unfold wrap32
    omega
  simp only [kfree, hhdr]
  rw [if_neg (by omega), if_neg (by omega)]
  unfold Rejected
  split
  · rename_i hfree
    exact iff_of_true ⟨_, rfl⟩ (Or.inl (by simpa [isFree] using hfree))
  · rename_i hused
    have heven : m (p - 8) % 2 ≠ 1 := by simpa [isFree] using hused
    split
    · rename_i hsize
      refine iff_of_true ⟨_, rfl⟩ (Or.inr ?_)
      unfold sizeOf at hsize
      omega
    · rename_i hsize
      refine iff_of_false ?_ ?_
      · -- neither merge panics
        rintro ⟨e, he⟩
        refine Exec.loop_ne_panic (fun current => ?_) _ _ he
        unfold backwardBody
        split_ifs <;> simp
      · rintro (hodd | hzero)
        · exact heven hodd
        · rw [hzero] at hsize
          exact hsize rfl

/-- A block that lies over the word in front of `p` hides its free mark. -/
theorem Layout.not_rejected_of_overlaid {m : Mem} {bs : List Block} {live : Finset Nat}
    (h : Layout m bs live) {p : Nat} (hover : Overlaid m p) : ¬ Rejected m p := by
  obtain ⟨cs, hlist, b, hb, rfl, hnext⟩ := hover
  rw [← h.blockList.unique hlist] at hb
  obtain ⟨hlo, hhi, h4, h4'⟩ := h.block b hb
  have hstop : b.stop = b.addr + 8 + b.size := rfl
  have heq : m (b.addr + 4) = if b.stop = heapEnd then 0 else b.stop := h.seg.next_eq b hb
  have hword : b.addr + 12 - 8 = b.addr + 4 := rfl
  rw [next, heq] at hnext
  rw [Rejected, hword, heq]
  split
  · rename_i hlast
    exact absurd (if_pos hlast) hnext
  · have : heapStart = 0x400000 := rfl
    omega

/-- A header word in front of a pointer that is not live is rejected, unless the pointer is
overlaid. -/
theorem Layout.rejected_of_header {m : Mem} {bs : List Block} {live : Finset Nat}
    (h : Layout m bs live) {p : Nat} (hp : p ∉ live) (h8 : 8 ≤ p) (hover : ¬ Overlaid m p)
    {c : Block} (hc : c ∈ bs) (hx : p - 8 = c.addr ∨ p - 8 = c.addr + 4) : Rejected m p := by
  rcases hx with hx | hx
  · left
    rw [hx, h.word_eq hc, Block.word]
    obtain ⟨-, -, -, h4⟩ := h.block c hc
    cases hfree : c.free with
    | false => exact absurd ((h.inUse p).2 ⟨c, hc, hfree, by omega⟩) hp
    | true =>
        simp only [Bool.toNat_true]
        omega
  · right
    rw [hx]
    by_contra hne
    exact hover ⟨bs, h.blockList, c, hc, by omega, hne⟩

/-- An allocation of another pointer leaves the word in front of `p` rejected. -/
theorem Layout.rejected_kmalloc {m m' : Mem} {bs : List Block} {live : Finset Nat}
    (h : Layout m bs live) {n fuel p q : Nat} (hret : kmalloc fuel m n = .ret (m', q))
    (hp : p ∉ live) (hpq : p ≠ q) (h8 : 8 ≤ p) (hword : Rejected m p)
    (hover : ¬ Overlaid m' p) : Rejected m' p := by
  have hret' := kmalloc_mono hret (Nat.le_max_left fuel (bs.length + 1))
  rcases kmalloc_spec h n (Nat.le_max_right fuel (bs.length + 1)) with ⟨hnone, -⟩ |
    ⟨pre, b, post, rfl, hb, hfit, -, hsome, hlay⟩
  · obtain ⟨rfl, -⟩ := Prod.mk.inj (Exec.ret.inj (hret'.symm.trans hnone))
    exact hword
  · obtain ⟨rfl, rfl⟩ := Prod.mk.inj (Exec.ret.inj (hret'.symm.trans hsome))
    have hmem : b ∈ pre ++ b :: post := by simp
    obtain ⟨-, hend, -, h4⟩ := h.block b hmem
    rcases takeBlock_writes h4 (h.word_eq hmem) hend hfit (p - 8) with hsame | ⟨c, hc, hx⟩
    · unfold Rejected at hword ⊢
      rwa [hsame]
    · have hp' : p ∉ insert (b.addr + 8) live := by
        rw [Finset.mem_insert, not_or]
        exact ⟨hpq, hp⟩
      exact hlay.rejected_of_header hp' h8 hover (c := c) (by simp [hc]) hx

/-- A release of another pointer leaves the word in front of `p` rejected. -/
theorem Relinked.rejected {m m' : Mem} {bs : List Block} (hlinks : Relinked bs m m')
    {live : Finset Nat} (h : Layout m bs live) {p : Nat} (h8 : 8 ≤ p) (hword : Rejected m p)
    (hover : ¬ Overlaid m p) : Rejected m' p := by
  rcases hlinks (p - 8) with hsame | ⟨c, hc, ⟨-, hodd⟩ | ⟨hx, hbehind⟩⟩
  · unfold Rejected at hword ⊢
    rwa [hsame]
  · exact Or.inl hodd
  · -- the release has changed the `next` of a block that overlays `p`
    refine absurd ⟨bs, h.blockList, c, hc, by omega, ?_⟩ hover
    obtain ⟨hlo, -, -, -⟩ := h.block c hc
    have hstop : c.stop = c.addr + 8 + c.size := rfl
    have hstart : heapStart = 0x400000 := rfl
    rw [h.seg.next_eq c hc, if_neg hbehind]
    omega

/-! ## Runs -/

/-- The memory, the pointers handed out, and the pointers that have been freed and not been
handed out again. -/
structure Use where
  mem : Mem
  live : Finset Nat
  stale : Finset Nat

/-- The calls of a run: requests of any 32-bit size, and releases of live pointers, of stale
pointers and of `NULL`, as far as they return.  Nobody writes to a payload. -/
inductive Step : Use → Use → Prop
  | kmalloc {s : Use} {m' : Mem} {fuel n p : Nat} : n < 2 ^ 32 →
      kmalloc fuel s.mem n = .ret (m', p) →
      Step s ⟨m', if p = 0 then s.live else insert p s.live, s.stale.erase p⟩
  | kfree {s : Use} {m' : Mem} {fuel p : Nat} : p ∈ s.live → kfree fuel s.mem p = .ret m' →
      Step s ⟨m', s.live.erase p, insert p s.stale⟩
  | kfreeAgain {s : Use} {m' : Mem} {fuel p : Nat} : p ∈ s.stale →
      kfree fuel s.mem p = .ret m' → Step s ⟨m', s.live, s.stale⟩
  | kfreeNull {s : Use} {m' : Mem} {fuel : Nat} : kfree fuel s.mem 0 = .ret m' →
      Step s ⟨m', s.live, s.stale⟩

/-- The states of a run from `heap_init`, the last one first. -/
inductive Run : List Use → Prop
  | init (m : Mem) : Run [⟨heapInit m, ∅, ∅⟩]
  | step {s s' : Use} {ss : List Use} : Run (s :: ss) → Step s s' → Run (s' :: s :: ss)

/-- Every further release of a freed pointer panics. -/
def DetectsDoubleFree (s : Use) : Prop :=
  ∀ p ∈ s.stale, ∀ fuel, ∃ e, kfree fuel s.mem p = .panic e

/-- No freed pointer is overlaid. -/
def NotOverlaid (s : Use) : Prop := ∀ p ∈ s.stale, ¬ Overlaid s.mem p

/-- The heap is in order, and no freed pointer is live. -/
structure Kept (s : Use) : Prop where
  layout : ∃ bs, Layout s.mem bs s.live
  notLive : ∀ p ∈ s.stale, p ∉ s.live
  inside : ∀ p ∈ s.stale, heapStart + 8 ≤ p ∧ p < heapEnd + 8

theorem kept_init (m : Mem) : Kept ⟨heapInit m, ∅, ∅⟩ :=
  ⟨⟨_, layout_heapInit m⟩, by simp, by simp⟩

theorem Kept.detects_iff {s : Use} (h : Kept s) :
    DetectsDoubleFree s ↔ ∀ p ∈ s.stale, Rejected s.mem p := by
  constructor
  · intro hdet p hp
    obtain ⟨hlo, hhi⟩ := h.inside p hp
    exact (kfree_panics_iff_rejected hlo hhi 0).1 (hdet p hp 0)
  · intro hrej p hp fuel
    obtain ⟨hlo, hhi⟩ := h.inside p hp
    exact (kfree_panics_iff_rejected hlo hhi fuel).2 (hrej p hp)

/-- Where every second release panics, no freed pointer is overlaid. -/
theorem Kept.notOverlaid {s : Use} (h : Kept s) (hdet : DetectsDoubleFree s) : NotOverlaid s := by
  intro p hp hover
  obtain ⟨bs, hbs⟩ := h.layout
  exact hbs.not_rejected_of_overlaid hover (h.detects_iff.1 hdet p hp)

/-- The calls keep the heap in order, as long as second releases panic. -/
theorem Kept.step {s s' : Use} (h : Kept s) (hdet : DetectsDoubleFree s) (hstep : Step s s') :
    Kept s' := by
  obtain ⟨bs, hbs⟩ := h.layout
  cases hstep with
  | @kmalloc m' fuel n p hn hret =>
      rcases Holds.kmalloc_cases ⟨bs, hbs⟩ hret with ⟨hz, hm⟩ | ⟨hne, -, hholds, -⟩
      · simp only at hz hm
        subst hm
        refine ⟨⟨bs, by rwa [if_pos hz]⟩, fun q hq => ?_, fun q hq => ?_⟩
        · rw [if_pos hz]
          exact h.notLive q (Finset.mem_of_mem_erase hq)
        · exact h.inside q (Finset.mem_of_mem_erase hq)
      · simp only at hne hholds
        refine ⟨by rwa [if_neg hne], fun q hq => ?_, fun q hq => ?_⟩
        · obtain ⟨hqp, hq⟩ := Finset.mem_erase.1 hq
          rw [if_neg hne, Finset.mem_insert, not_or]
          exact ⟨hqp, h.notLive q hq⟩
        · exact h.inside q (Finset.mem_of_mem_erase hq)
  | @kfree m' fuel p hp hret =>
      obtain ⟨-, hholds, -⟩ := Holds.kfree_cases ⟨bs, hbs⟩ hp hret
      refine ⟨hholds, fun q hq => ?_, fun q hq => ?_⟩
      · rcases Finset.mem_insert.1 hq with rfl | hq
        · exact Finset.notMem_erase q s.live
        · exact fun hmem => h.notLive q hq (Finset.mem_of_mem_erase hmem)
      · rcases Finset.mem_insert.1 hq with rfl | hq
        · obtain ⟨b, hb, -, rfl⟩ := (hbs.inUse q).1 hp
          obtain ⟨hlo, hhi, -, -⟩ := hbs.block b hb
          have hstop : b.stop = b.addr + 8 + b.size := rfl
          omega
        · exact h.inside q hq
  | @kfreeAgain m' fuel p hp hret =>
      obtain ⟨e, he⟩ := hdet p hp fuel
      exact absurd (hret.symm.trans he) (by simp)
  | @kfreeNull m' fuel hret =>
      obtain rfl : s.mem = m' := by simpa [kfree] using hret
      exact h

/-- A freed pointer that is not overlaid by a call is still recognised after it. -/
theorem Kept.detects_step {s s' : Use} (h : Kept s) (hdet : DetectsDoubleFree s)
    (hstep : Step s s') (hover : NotOverlaid s') : DetectsDoubleFree s' := by
  have hrej := h.detects_iff.1 hdet
  rw [(h.step hdet hstep).detects_iff]
  obtain ⟨bs, hbs⟩ := h.layout
  have h8 : ∀ q ∈ s.stale, 8 ≤ q := fun q hq => by
    have := (h.inside q hq).1
    omega
  cases hstep with
  | @kmalloc m' fuel n p hn hret =>
      intro q hq
      obtain ⟨hqp, hq'⟩ := Finset.mem_erase.1 hq
      exact hbs.rejected_kmalloc hret (h.notLive q hq') hqp (h8 q hq') (hrej q hq') (hover q hq)
  | @kfree m' fuel p hp hret =>
      have hret' := kfree_mono hret (Nat.le_max_left fuel bs.length)
      obtain ⟨pre, b, post, rfl, -, rfl, hcase⟩ :=
        kfree_spec hbs hp (Nat.le_max_right fuel bs.length)
      rcases hcase with ⟨-, hpanic⟩ | ⟨-, m'', hret'', -, hlinks, hodd⟩
      · exact absurd (hret'.symm.trans hpanic) (by simp)
      · obtain rfl := Exec.ret.inj (hret'.symm.trans hret'')
        intro q hq
        rcases Finset.mem_insert.1 hq with rfl | hq
        · exact Or.inl hodd
        · exact hlinks.rejected hbs (h8 q hq) (hrej q hq) (h.notOverlaid hdet q hq)
  | @kfreeAgain m' fuel p hp hret =>
      obtain ⟨e, he⟩ := hdet p hp fuel
      exact absurd (hret.symm.trans he) (by simp)
  | @kfreeNull m' fuel hret =>
      obtain rfl : s.mem = m' := by simpa [kfree] using hret
      exact hrej

/-- Runs in which every second release panics. -/
theorem Run.kept {ss : List Use} (h : Run ss) (hdet : ∀ s ∈ ss, DetectsDoubleFree s) :
    ∀ s ∈ ss, Kept s := by
  induction h with
  | init m => simpa using kept_init m
  | @step s s' ss _ hstep ih =>
      have hkept := ih fun t ht => hdet t (List.mem_cons_of_mem _ ht)
      intro t ht
      rcases List.mem_cons.1 ht with rfl | ht
      · exact (hkept s List.mem_cons_self).step (hdet s (by simp)) hstep
      · exact hkept t ht

/-- Runs in which no freed pointer is overlaid. -/
theorem Run.detects {ss : List Use} (h : Run ss) (hover : ∀ s ∈ ss, NotOverlaid s) :
    ∀ s ∈ ss, Kept s ∧ DetectsDoubleFree s := by
  induction h with
  | init m => simpa [DetectsDoubleFree] using kept_init m
  | @step s s' ss _ hstep ih =>
      have hprev := ih fun t ht => hover t (List.mem_cons_of_mem _ ht)
      intro t ht
      rcases List.mem_cons.1 ht with rfl | ht
      · obtain ⟨hkept, hdet⟩ := hprev s List.mem_cons_self
        exact ⟨hkept.step hdet hstep, hkept.detects_step hdet hstep (hover _ List.mem_cons_self)⟩
      · exact hprev t ht

/-- **When double frees are detected.**  In every state of a run, every further release of a
freed pointer panics, exactly when in no state of the run a block that has a block behind it
starts twelve bytes in front of a freed pointer. -/
theorem double_free_panics_iff {ss : List Use} (h : Run ss) :
    (∀ s ∈ ss, DetectsDoubleFree s) ↔ ∀ s ∈ ss, NotOverlaid s := by
  constructor
  · intro hdet s hs
    exact (h.kept hdet s hs).notOverlaid (hdet s hs)
  · intro hover s hs
    exact (h.detects hover s hs).2

/-- The memory in which a block has been marked free. -/
def marked (m : Mem) (header : Nat) : Mem := store m header (markFree (m header))

/-- The heap after `kmalloc(16)`. -/
def oneBlock : Mem := takeBlock (heapInit fun _ => 0) 0x400000 16

/-- The heap after `kfree(kmalloc(16))`. -/
def freedBlock : Mem := forwardMerge (marked oneBlock 0x400000) 0x400000

theorem kmalloc_oneBlock : kmalloc 1 (heapInit fun _ => 0) 16 = .ret (oneBlock, 0x400008) := rfl

theorem kfree_oneBlock : kfree 2 oneBlock 0x400008 = .ret freedBlock := rfl

/-- The states of `kfree(kmalloc(16))`. -/
def freedStates : List Use :=
  [⟨freedBlock, ∅, {0x400008}⟩, ⟨oneBlock, {0x400008}, ∅⟩, ⟨heapInit fun _ => 0, ∅, ∅⟩]

theorem run_freedStates : Run freedStates :=
  ((Run.init fun _ => 0).step (.kmalloc (by norm_num) kmalloc_oneBlock)).step
    (.kfree (p := 0x400008) (by simp) kfree_oneBlock)

/-- No block starts in front of the heap. -/
theorem Layout.not_overlaid_of_lt {m : Mem} {bs : List Block} {live : Finset Nat}
    (h : Layout m bs live) {p : Nat} (hp : p < heapStart + 12) : ¬ Overlaid m p := by
  rintro ⟨cs, hlist, b, hb, rfl, -⟩
  rw [← h.blockList.unique hlist] at hb
  obtain ⟨hlo, -, -, -⟩ := h.block b hb
  omega

/-- The first block of the heap is recognised when it is freed again. -/
theorem double_free_panics_iff_freedBlock :
    Run freedStates ∧ (∀ s ∈ freedStates, NotOverlaid s) ∧
      ∃ e, kfree 2 freedBlock 0x400008 = .panic e := by
  have hreach : Reaches freedBlock _ :=
    .kfree (p := 0x400008) (.kmalloc (.init fun _ => 0) (by norm_num) kmalloc_oneBlock) (by simp)
      kfree_oneBlock
  obtain ⟨bs, hbs⟩ := hreach.layout
  have hover : ∀ s ∈ freedStates, NotOverlaid s := by
    intro s hs p hp
    simp only [freedStates, List.mem_cons, List.not_mem_nil, or_false] at hs
    rcases hs with rfl | rfl | rfl
    · rw [Finset.mem_singleton.1 hp]
      exact hbs.not_overlaid_of_lt (by decide)
    · exact absurd hp (Finset.notMem_empty p)
    · exact absurd hp (Finset.notMem_empty p)
  exact ⟨run_freedStates, hover, (double_free_panics_iff run_freedStates).2 hover _
    List.mem_cons_self 0x400008 (Finset.mem_singleton_self _) 2⟩

/-- Three blocks of 16 bytes. -/
def threeBlocks : Mem := takeBlock twoBlocks 0x400030 16

/-- The second of three blocks has been freed, and then the first. -/
def mergedBlocks : Mem := forwardMerge (marked (marked threeBlocks 0x400018) 0x400000) 0x400000

/-- **A double free that is not detected.**  Of three blocks of 16 bytes the second is freed,
then the first, and 12 bytes are requested: the block that is split off starts one word in front
of the old header of the second block, and another `kfree` of the second block does not panic. -/
theorem overlaid_double_free : ∃ ss, Run ss ∧ ∃ s ∈ ss, ∃ p ∈ s.stale, ∀ fuel e,
    kfree fuel s.mem p ≠ .panic e := by
  have h₂ : kmalloc 2 oneBlock 16 = .ret (twoBlocks, 0x400020) := rfl
  have h₃ : kmalloc 3 twoBlocks 16 = .ret (threeBlocks, 0x400038) := rfl
  have h₄ : kfree 4 threeBlocks 0x400020 = .ret (marked threeBlocks 0x400018) := rfl
  have h₅ : kfree 4 (marked threeBlocks 0x400018) 0x400008 = .ret mergedBlocks := rfl
  have h₆ : kmalloc 1 mergedBlocks 12 = .ret (takeBlock mergedBlocks 0x400000 12, 0x400008) := rfl
  have hthree := (((Run.init fun _ => 0).step (.kmalloc (by norm_num) kmalloc_oneBlock)).step
    (.kmalloc (by norm_num) h₂)).step (.kmalloc (by norm_num) h₃)
  have hmerged := (hthree.step (.kfree (by simp) h₄)).step (.kfree (by simp) h₅)
  have hsplit := hmerged.step (.kmalloc (by norm_num) h₆)
  refine ⟨_, hsplit, _, List.mem_cons_self, 0x400020, by simp, fun fuel e he => ?_⟩
  -- the word in front of the pointer is the `next` of the block that was split off
  have hword : takeBlock mergedBlocks 0x400000 12 (0x400020 - 8) = 0x400030 := rfl
  have hrej : ¬ Rejected (takeBlock mergedBlocks 0x400000 12) 0x400020 := by
    rw [Rejected, hword]
    decide
  exact hrej ((kfree_panics_iff_rejected (by decide) (by decide) fuel).1 ⟨e, he⟩)

end BenmoshOS.Heap
