import BenmoshOS.Heap.Layout

/-!
# The kernel heap: what holds after every run

`Reaches m live` says that the memory `m` is reached from `heap_init` by some
sequence of `kmalloc` (of any 32-bit size), `kfree` (of live pointers) and
writes of the owners into their own payloads, none of which panicked, and that
`live` are the pointers handed out and not yet freed.  `heap_run_invariant`
says what every such state looks like: the list that starts at `heap_start`
tiles the heap, its used blocks are exactly the live ones, and so the payloads
of live pointers are disjoint, aligned and inside the heap, and the two list
walks return.
-/

namespace BenmoshOS.Heap

/-! ## The blocks reached through `next` -/

/-- `BlockList m cur bs`: following `next` from `cur` to `NULL` visits exactly the
blocks `bs`. -/
def BlockList (m : Mem) : Nat → List Block → Prop
  | cur, [] => cur = 0
  | cur, b :: bs => cur ≠ 0 ∧ b.addr = cur ∧ b.size = sizeOf (m cur) ∧
      b.free = isFree (m cur) ∧ BlockList m (next m cur) bs

/-- `Tiles a bs e`: the blocks `bs` cover `[a, e)` without gap or overlap. -/
def Tiles : Nat → List Block → Nat → Prop
  | a, [], e => a = e
  | a, b :: bs, e => b.addr = a ∧ Tiles b.stop bs e

theorem Seg.tiles {m : Mem} {a e : Nat} {bs : List Block} (h : Seg m a bs e) :
    Tiles a bs e := by
  induction bs generalizing a with
  | nil => exact h
  | cons b bs ih => exact ⟨h.1, ih h.2.2.2.2⟩

theorem Seg.blockList {m : Mem} {a : Nat} {bs : List Block} (ha : heapStart ≤ a)
    (h : Seg m a bs heapEnd) : BlockList m (link a) bs := by
  induction bs generalizing a with
  | nil => exact if_pos h
  | cons b bs ih =>
      obtain ⟨rfl, h4, hw, hn, hrest⟩ := h
      have hlen := seg_length_le hrest
      have hstop : b.stop = b.addr + 8 + b.size := rfl
      obtain ⟨hl, h0⟩ := link_ne_zero ha (by omega)
      rw [hl]
      refine ⟨h0, rfl, by rw [hw, sizeOf_word h4], by rw [hw, isFree_word h4], ?_⟩
      rw [hn]
      exact ih (by omega) hrest

theorem Seg.next_eq {m : Mem} {a : Nat} {bs : List Block} (h : Seg m a bs heapEnd) :
    ∀ b ∈ bs, next m b.addr = if b.stop = heapEnd then 0 else b.stop := by
  induction bs generalizing a with
  | nil => simp
  | cons b bs ih =>
      obtain ⟨rfl, -, -, hn, hrest⟩ := h
      intro c hc
      rcases List.mem_cons.1 hc with rfl | hc
      · exact hn
      · exact ih hrest c hc

/-! ## Runs -/

/-- The number of payload bytes behind a live pointer. -/
def payloadSize (m : Mem) (p : Nat) : Nat := sizeOf (m (p - 8))

/-- The states reached from `heap_init`, with the live pointers. -/
inductive Reaches : Mem → Finset Nat → Prop
  | init (m : Mem) : Reaches (heapInit m) ∅
  | kmalloc {m m' : Mem} {live : Finset Nat} {fuel n p : Nat} : Reaches m live →
      n < 2 ^ 32 → kmalloc fuel m n = .ret (m', p) →
      Reaches m' (if p = 0 then live else insert p live)
  | kfree {m m' : Mem} {live : Finset Nat} {fuel p : Nat} : Reaches m live →
      p ∈ live → kfree fuel m p = .ret m' → Reaches m' (live.erase p)
  | write {m : Mem} {live : Finset Nat} {p a v : Nat} : Reaches m live →
      p ∈ live → p ≤ a → a + 4 ≤ p + payloadSize m p → Reaches (store m a v) live

theorem layout_heapInit (m : Mem) :
    Layout (heapInit m) [⟨heapStart, heapSize - 8, true⟩] ∅ := by
  refine ⟨⟨rfl, by decide, ?_, ?_, rfl⟩, by simp, by simp⟩
  · simp [heapInit, store, Block.word, markFree, heapStart, heapSize]
  · simp [heapInit, store, next, link, Block.stop, heapStart, heapSize, heapEnd]

/-- A pointer that is live is the payload of a block of the layout, in use. -/
theorem Layout.payloadSize_eq {m : Mem} {bs : List Block} {live : Finset Nat}
    (h : Layout m bs live) {b : Block} (hb : b ∈ bs) : payloadSize m (b.addr + 8) = b.size := by
  obtain ⟨pre, post, rfl⟩ := List.append_of_mem hb
  obtain ⟨-, h4, hw, -⟩ := seg_split.1 h.seg
  rw [payloadSize, Nat.add_sub_cancel, hw, sizeOf_word h4]

/-- A word of a payload is no word of a header. -/
theorem Layout.payload_ne_header {m : Mem} {bs : List Block} {live : Finset Nat}
    (h : Layout m bs live) {b : Block} (hb : b ∈ bs) {x : Nat} (h1 : b.addr + 8 ≤ x)
    (h2 : x < b.stop) : ∀ c ∈ bs, x ≠ c.addr ∧ x ≠ c.addr + 4 := by
  obtain ⟨pre, post, rfl⟩ := List.append_of_mem hb
  have hpw := seg_pairwise h.seg
  rw [List.pairwise_append, List.pairwise_cons] at hpw
  intro c hc
  have hcs : c.stop = c.addr + 8 + c.size := rfl
  rcases List.mem_append.1 hc with hc | hc
  · have := hpw.2.2 c hc b (by simp)
    omega
  · rcases List.mem_cons.1 hc with rfl | hc
    · omega
    · have := hpw.2.1.1 c hc
      omega

/-- A segment only depends on the words of its headers. -/
theorem seg_congr_headers {m m' : Mem} {a e : Nat} {bs : List Block}
    (hm : ∀ c ∈ bs, m' c.addr = m c.addr ∧ m' (c.addr + 4) = m (c.addr + 4))
    (h : Seg m a bs e) : Seg m' a bs e := by
  induction bs generalizing a with
  | nil => exact h
  | cons b bs ih =>
      obtain ⟨rfl, h4, hw, hn, hrest⟩ := h
      obtain ⟨h1, h2⟩ := hm b (by simp)
      refine ⟨rfl, h4, by rw [h1, hw], ?_, ih (fun c hc => hm c (by simp [hc])) hrest⟩
      rw [next, h2, ← hn, next]

/-- An owner's write into its payload keeps the layout. -/
theorem Layout.write {m : Mem} {bs : List Block} {live : Finset Nat} (h : Layout m bs live)
    {p a : Nat} (v : Nat) (hp : p ∈ live) (h1 : p ≤ a) (h2 : a < p + payloadSize m p) :
    Layout (store m a v) bs live := by
  obtain ⟨b, hb, -, rfl⟩ := (h.inUse p).1 hp
  rw [h.payloadSize_eq hb] at h2
  have hstop : b.stop = b.addr + 8 + b.size := rfl
  refine ⟨seg_congr_headers (fun c hc => ?_) h.seg, h.noTwoFree, h.inUse⟩
  obtain ⟨h3, h4⟩ := h.payload_ne_header hb h1 (by omega) c hc
  exact ⟨Function.update_of_ne h3.symm _ _, Function.update_of_ne h4.symm _ _⟩

/-- **Every run keeps a layout.** -/
theorem Reaches.layout {m : Mem} {live : Finset Nat} (h : Reaches m live) :
    ∃ bs, Layout m bs live := by
  induction h with
  | init m => exact ⟨_, layout_heapInit m⟩
  | @kmalloc m m' live fuel n p _ hn hret ih =>
      obtain ⟨bs, hbs⟩ := ih
      have hret' := kmalloc_mono hret (Nat.le_max_left fuel (bs.length + 1))
      rcases kmalloc_spec hbs n (Nat.le_max_right fuel (bs.length + 1)) with ⟨hnone, -⟩ |
        ⟨pre, b, post, rfl, hb, -, -, hsome, hlay⟩
      · rw [hret'] at hnone
        cases hnone
        exact ⟨bs, by simpa using hbs⟩
      · rw [hret'] at hsome
        cases hsome
        exact ⟨_, by simpa using hlay⟩
  | @kfree m m' live fuel p _ hp hret ih =>
      obtain ⟨bs, hbs⟩ := ih
      have hret' := kfree_mono hret (Nat.le_max_left fuel bs.length)
      obtain ⟨pre, b, post, rfl, -, -, hcase⟩ :=
        kfree_spec hbs hp (Nat.le_max_right fuel bs.length)
      rcases hcase with ⟨-, hpanic⟩ | ⟨-, m'', hret'', hlay, -⟩
      · rw [hret'] at hpanic
        cases hpanic
      · rw [hret'] at hret''
        cases hret''
        exact ⟨_, hlay⟩
  | @write m live p a v _ hp h1 h2 ih =>
      obtain ⟨bs, hbs⟩ := ih
      exact ⟨bs, hbs.write v hp h1 (by omega)⟩

/-! ## What a layout gives its users -/

/-- The payloads of two different live pointers do not overlap. -/
theorem Layout.disjoint {m : Mem} {bs : List Block} {live : Finset Nat} (h : Layout m bs live)
    {p q : Nat} (hp : p ∈ live) (hq : q ∈ live) (hne : p ≠ q) :
    p + payloadSize m p + 8 ≤ q ∨ q + payloadSize m q + 8 ≤ p := by
  obtain ⟨b, hb, -, rfl⟩ := (h.inUse p).1 hp
  obtain ⟨c, hc, -, rfl⟩ := (h.inUse q).1 hq
  rw [h.payloadSize_eq hb, h.payloadSize_eq hc]
  have hbc : b ≠ c := fun hbc => hne (by rw [hbc])
  have hbs : b.stop = b.addr + 8 + b.size := rfl
  have hcs : c.stop = c.addr + 8 + c.size := rfl
  obtain ⟨pre, post, rfl⟩ := List.append_of_mem hb
  have hpw := seg_pairwise h.seg
  rw [List.pairwise_append, List.pairwise_cons] at hpw
  have hc' : c ∈ pre ∨ c ∈ post := by simpa [hbc.symm] using hc
  rcases hc' with hc' | hc'
  · have := hpw.2.2 c hc' b (by simp)
    omega
  · have := hpw.2.1.1 c hc'
    omega

/-- The payload of a live pointer is aligned and lies inside the heap. -/
theorem Layout.inside {m : Mem} {bs : List Block} {live : Finset Nat} (h : Layout m bs live)
    {p : Nat} (hp : p ∈ live) :
    4 ∣ p ∧ heapStart + 8 ≤ p ∧ p + payloadSize m p ≤ heapEnd := by
  obtain ⟨b, hb, -, rfl⟩ := (h.inUse p).1 hp
  rw [h.payloadSize_eq hb]
  obtain ⟨h1, h2, h3, -⟩ := h.block b hb
  have hbs : b.stop = b.addr + 8 + b.size := rfl
  exact ⟨by omega, by omega, by omega⟩

theorem Layout.kmalloc_returns {m : Mem} {bs : List Block} {live : Finset Nat}
    (h : Layout m bs live) (n : Nat) {fuel : Nat} (hf : bs.length < fuel) :
    ∃ r, kmalloc fuel m n = .ret r := by
  rcases kmalloc_spec h n hf with ⟨hr, -⟩ | ⟨_, _, _, -, -, -, -, hr, -⟩
  · exact ⟨_, hr⟩
  · exact ⟨_, hr⟩

theorem Layout.kfree_ne_spin {m : Mem} {bs : List Block} {live : Finset Nat}
    (h : Layout m bs live) {p : Nat} (hp : p ∈ live) {fuel : Nat} (hf : bs.length ≤ fuel) :
    kfree fuel m p ≠ .spin := by
  obtain ⟨_, _, _, -, -, -, ⟨-, hr⟩ | ⟨-, _, hr, -⟩⟩ := kfree_spec h hp hf
  · rw [hr]; simp
  · rw [hr]; simp

/-- **The heap after any run.**  The blocks reached from `heap_start` tile the
heap exactly, each `next` is the end of its block and the last is `NULL`, sizes
are multiples of four, no two neighbours are both free, and the blocks in use
are those of the live pointers.  So live payloads are disjoint, aligned and
inside the heap, and the walks of `kmalloc` and `kfree` come to an end. -/
theorem heap_run_invariant {m : Mem} {live : Finset Nat} (h : Reaches m live) :
    ∃ bs, BlockList m heapStart bs ∧ Tiles heapStart bs heapEnd ∧
      (∀ b ∈ bs, next m b.addr = if b.stop = heapEnd then 0 else b.stop) ∧
      (∀ b ∈ bs, 4 ∣ b.size) ∧
      bs.IsChain (fun b c => ¬ (b.free = true ∧ c.free = true)) ∧
      (∀ p, p ∈ live ↔ ∃ b ∈ bs, b.free = false ∧ p = b.addr + 8) ∧
      (∀ p ∈ live, ∀ q ∈ live, p ≠ q →
        p + payloadSize m p ≤ q ∨ q + payloadSize m q ≤ p) ∧
      (∀ p ∈ live, 4 ∣ p ∧ heapStart ≤ p ∧ p + payloadSize m p ≤ heapEnd) ∧
      (∀ n fuel, bs.length < fuel → kmalloc fuel m n ≠ .spin) ∧
      ∀ p ∈ live, ∀ fuel, bs.length < fuel → kfree fuel m p ≠ .spin := by
  obtain ⟨bs, hbs⟩ := h.layout
  refine ⟨bs, hbs.seg.blockList (le_refl _), hbs.seg.tiles, hbs.seg.next_eq,
    fun b hb => (hbs.block b hb).2.2.2, ?_, hbs.inUse, fun p hp q hq hne => ?_, fun p hp => ?_,
    fun n fuel hf => ?_, fun p hp fuel hf => hbs.kfree_ne_spin hp hf.le⟩
  · exact hbs.noTwoFree.imp fun b c hbc hboth => by simp [hbc hboth.1] at hboth
  · have := hbs.disjoint hp hq hne
    omega
  · obtain ⟨h1, h2, h3⟩ := hbs.inside hp
    exact ⟨h1, by omega, h3⟩
  · obtain ⟨r, hr⟩ := hbs.kmalloc_returns n hf
    rw [hr]
    simp

/-- The invariant after one allocation of a task control block. -/
theorem heap_run_invariant_kmalloc :
    ∃ bs, BlockList (takeBlock (heapInit fun _ => 0) heapStart 44) heapStart bs ∧
      Tiles heapStart bs heapEnd := by
  have hret : kmalloc 1 (heapInit fun _ => 0) 44 =
      .ret (takeBlock (heapInit fun _ => 0) heapStart 44, 0x400008) := rfl
  have hrun := Reaches.kmalloc (Reaches.init fun _ => 0) (by decide) hret
  obtain ⟨bs, h1, h2, -⟩ := heap_run_invariant hrun
  exact ⟨bs, h1, h2⟩

end BenmoshOS.Heap
