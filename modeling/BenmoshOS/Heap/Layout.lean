import BenmoshOS.Heap.Basic
import Mathlib.Data.List.Chain
import Mathlib.Data.Finset.Basic

/-!
# The kernel heap as a sequence of blocks

The allocator's view of memory is a sequence of blocks that tiles the heap.
`Seg m a bs e` says that memory holds the headers of the blocks `bs` one after
the other, from address `a` to address `e`; `Layout` adds what the allocator
maintains on top of the tiling: no two neighbouring free blocks, and the used
blocks are exactly those of the live pointers.

The two theorems of this file say what one call does to a layout:

* `kmalloc_spec` — the first free block that is large enough is carved, or
  nothing changes and every free block is too small;
* `kfree_spec` — the block is merged with its free neighbours.

Both are total: the list walks return on every fuel above the number of blocks.
-/

namespace BenmoshOS.Heap

/-- A block of the heap. -/
structure Block where
  addr : Nat
  size : Nat
  free : Bool
  deriving DecidableEq, Repr

namespace Block

/-- The address behind the payload of a block. -/
def stop (b : Block) : Nat := b.addr + 8 + b.size

/-- The header word `size_and_free` of a block. -/
def word (b : Block) : Nat := b.size + b.free.toNat

end Block

/-- How the header stores the address of the following block: behind the last
block there is none. -/
def link (a : Nat) : Nat := if a = heapEnd then 0 else a

/-- `Seg m a bs e`: memory holds the blocks `bs` one after the other from
address `a` to address `e`. -/
def Seg (m : Mem) : Nat → List Block → Nat → Prop
  | a, [], e => a = e
  | a, b :: bs, e =>
      b.addr = a ∧ 4 ∣ b.size ∧ m a = b.word ∧ next m a = link b.stop ∧ Seg m b.stop bs e

/-! ## Segments -/

section Segments

variable {m m' : Mem} {a e : Nat} {bs : List Block}

theorem seg_append {xs ys : List Block} :
    Seg m a (xs ++ ys) e ↔ ∃ mid, Seg m a xs mid ∧ Seg m mid ys e := by
  induction xs generalizing a with
  | nil => simp [Seg]
  | cons b xs ih =>
      simp only [List.cons_append, Seg, ih]
      constructor
      · rintro ⟨h1, h2, h3, h4, mid, h5, h6⟩
        exact ⟨mid, ⟨h1, h2, h3, h4, h5⟩, h6⟩
      · rintro ⟨mid, ⟨h1, h2, h3, h4, h5⟩, h6⟩
        exact ⟨h1, h2, h3, h4, mid, h5, h6⟩

theorem seg_length_le (h : Seg m a bs e) : a + 8 * bs.length ≤ e := by
  induction bs generalizing a with
  | nil => simp [Seg] at h; simp [h]
  | cons b bs ih =>
      obtain ⟨rfl, -, -, -, h⟩ := h
      have := ih h
      simp only [Block.stop, List.length_cons] at this ⊢
      omega

/-- A segment only depends on the words between its two ends. -/
theorem seg_congr (hm : ∀ x, a ≤ x → x < e → m' x = m x) (h : Seg m a bs e) :
    Seg m' a bs e := by
  induction bs generalizing a with
  | nil => exact h
  | cons b bs ih =>
      obtain ⟨rfl, h4, hw, hn, h⟩ := h
      have hle := seg_length_le h
      have hstop : b.stop = b.addr + 8 + b.size := rfl
      refine ⟨rfl, h4, ?_, ?_, ih (fun x hx hxe => hm x (by omega) hxe) h⟩
      · rw [hm _ (le_refl _) (by omega), hw]
      · rw [next, hm _ (by omega) (by omega), ← hn, next]

/-- Every block of a segment lies between its two ends and is aligned. -/
theorem seg_block (h4 : 4 ∣ a) (h : Seg m a bs e) :
    ∀ b ∈ bs, a ≤ b.addr ∧ b.stop ≤ e ∧ 4 ∣ b.addr ∧ 4 ∣ b.size := by
  induction bs generalizing a with
  | nil => simp
  | cons b bs ih =>
      obtain ⟨rfl, hd, -, -, h⟩ := h
      have hle := seg_length_le h
      have hstop : b.stop = b.addr + 8 + b.size := rfl
      intro c hc
      rcases List.mem_cons.1 hc with rfl | hc
      · exact ⟨le_refl _, by omega, h4, hd⟩
      · have := ih (by omega) h c hc
        exact ⟨by omega, this.2⟩

theorem seg_addr_ge (h : Seg m a bs e) : ∀ b ∈ bs, a ≤ b.addr := by
  induction bs generalizing a with
  | nil => simp
  | cons b bs ih =>
      obtain ⟨rfl, -, -, -, h⟩ := h
      have hstop : b.stop = b.addr + 8 + b.size := rfl
      intro c hc
      rcases List.mem_cons.1 hc with rfl | hc
      · exact le_refl _
      · have := ih h c hc
        omega

/-- The blocks of a segment lie one behind the other. -/
theorem seg_pairwise (h : Seg m a bs e) : bs.Pairwise (fun b c => b.stop ≤ c.addr) := by
  induction bs generalizing a with
  | nil => exact List.Pairwise.nil
  | cons b bs ih =>
      obtain ⟨rfl, -, -, -, h⟩ := h
      exact List.pairwise_cons.2 ⟨seg_addr_ge h, ih h⟩

/-- Cutting a segment at one of its blocks. -/
theorem seg_split {xs ys : List Block} {b : Block} :
    Seg m a (xs ++ b :: ys) e ↔
      Seg m a xs b.addr ∧ 4 ∣ b.size ∧ m b.addr = b.word ∧ next m b.addr = link b.stop ∧
        Seg m b.stop ys e := by
  rw [seg_append]
  constructor
  · rintro ⟨mid, h1, rfl, h2⟩
    exact ⟨h1, h2⟩
  · rintro ⟨h1, h2⟩
    exact ⟨b.addr, h1, rfl, h2⟩

end Segments

/-! ## The header word -/

theorem sizeOf_word {b : Block} (h : 4 ∣ b.size) : sizeOf b.word = b.size := by
  unfold sizeOf Block.word
  cases b.free <;> simp <;> omega

theorem isFree_word {b : Block} (h : 4 ∣ b.size) : isFree b.word = b.free := by
  unfold isFree Block.word
  cases b.free <;> simp <;> omega

theorem markFree_word {s : Nat} (h : 4 ∣ s) (a : Nat) :
    markFree s = (Block.mk a s true).word := by
  unfold markFree Block.word
  simp
  omega

theorem dvd_roundUp4 (n : Nat) : 4 ∣ roundUp4 n := by
  unfold roundUp4 wrap32
  split <;> omega

/-! ## What the allocator maintains -/

/-- The layout of a heap: the blocks tile it, no two neighbours are both free,
and the blocks in use are exactly those of the live pointers. -/
structure Layout (m : Mem) (bs : List Block) (live : Finset Nat) : Prop where
  seg : Seg m heapStart bs heapEnd
  noTwoFree : bs.IsChain (fun b c => b.free = true → c.free = false)
  inUse : ∀ p, p ∈ live ↔ ∃ b ∈ bs, b.free = false ∧ p = b.addr + 8

theorem Layout.block {m : Mem} {bs : List Block} {live : Finset Nat} (h : Layout m bs live) :
    ∀ b ∈ bs, heapStart ≤ b.addr ∧ b.stop ≤ heapEnd ∧ 4 ∣ b.addr ∧ 4 ∣ b.size :=
  seg_block (by decide) h.seg

/-- Between the ends of the heap, an address is never `NULL`. -/
theorem link_ne_zero {a : Nat} (h : heapStart ≤ a) (ha : a < heapEnd) :
    link a = a ∧ a ≠ 0 := by
  unfold link
  unfold heapStart at h
  exact ⟨if_neg (by omega), by omega⟩

/-- Changing the words of one stretch of the heap into another sequence of
blocks keeps the tiling. -/
theorem seg_replace {m m' : Mem} {pre mid post : List Block} {a u v e : Nat}
    (hpre : Seg m a pre u) (hmid : Seg m' u mid v) (hpost : Seg m v post e)
    (hout : ∀ x, x < u ∨ v ≤ x → m' x = m x) : Seg m' a (pre ++ (mid ++ post)) e := by
  rw [seg_append]
  refine ⟨u, seg_congr (fun x _ hx => hout x (Or.inl hx)) hpre, ?_⟩
  rw [seg_append]
  exact ⟨v, hmid, seg_congr (fun x hx _ => hout x (Or.inr hx)) hpost⟩

/-! ## Allocation -/

/-- What allocation makes of the free block it has chosen. -/
def carve (b : Block) (req : Nat) : List Block :=
  if 24 ≤ b.size - req then
    [⟨b.addr, req, false⟩, ⟨b.addr + 8 + req, b.size - req - 8, true⟩]
  else [⟨b.addr, b.size, false⟩]

theorem takeBlock_outside {m : Mem} {b : Block} {req x : Nat} (h4 : 4 ∣ b.size)
    (hw : m b.addr = b.word) (hend : b.stop ≤ heapEnd) (hle : req ≤ b.size)
    (hx : x < b.addr ∨ b.stop ≤ x) : takeBlock m b.addr req x = m x := by
  have hstop : b.stop = b.addr + 8 + b.size := rfl
  have hhe : heapEnd = 0x800000 := rfl
  have hwrap : wrap32 (b.addr + req + 8) = b.addr + req + 8 := Nat.mod_eq_of_lt (by omega)
  simp only [takeBlock, hw, sizeOf_word h4, hwrap, store]
  split
  · repeat rw [Function.update_of_ne (by omega)]
  · rw [Function.update_of_ne (by omega)]

theorem takeBlock_seg {m : Mem} {b : Block} {req : Nat} (h4 : 4 ∣ b.size)
    (hw : m b.addr = b.word) (hn : next m b.addr = link b.stop) (hend : b.stop ≤ heapEnd)
    (hreq : 4 ∣ req) (hle : req ≤ b.size) :
    Seg (takeBlock m b.addr req) b.addr (carve b req) b.stop := by
  have hstop : b.stop = b.addr + 8 + b.size := rfl
  have hhe : heapEnd = 0x800000 := rfl
  have hwrap : wrap32 (b.addr + req + 8) = b.addr + req + 8 := Nat.mod_eq_of_lt (by omega)
  simp only [takeBlock, carve, hw, sizeOf_word h4, hwrap]
  split
  · rename_i hsplit
    have hl : link (b.addr + 8 + req) = b.addr + 8 + req := if_neg (by omega)
    have hs : b.addr + 8 + req + 8 + (b.size - req - 8) = b.stop := by omega
    have h4' : 4 ∣ b.size - req - 8 := by omega
    have e1 : b.addr + req + 8 = b.addr + 8 + req := by omega
    rw [e1]
    refine ⟨rfl, hreq, ?_, ?_, rfl, h4', ?_, ?_, hs⟩
    · simp [store, Block.word]
    · simp [store, next, Block.stop, hl]
    · rw [markFree_word h4' (b.addr + 8 + req)]
      simp only [store, Block.stop]
      rw [Function.update_of_ne (by omega), Function.update_of_ne (by omega),
        Function.update_of_ne (by omega), Function.update_self]
    · rw [next] at hn
      simp only [store, next, Block.stop, hs]
      rw [Function.update_of_ne (by omega), Function.update_of_ne (by omega),
        Function.update_self, Function.update_of_ne (by omega),
        Function.update_of_ne (by omega), hn, hstop]
  · simp only [Seg, store, next, Block.word, Block.stop] at hn ⊢
    refine ⟨trivial, h4, by simp, ?_, trivial⟩
    rw [Function.update_of_ne (by omega), hn]

theorem kmallocBody_at {m : Mem} {b : Block} (req : Nat) (h4 : 4 ∣ b.size)
    (hw : m b.addr = b.word) (h0 : b.addr ≠ 0) :
    kmallocBody m req b.addr =
      if b.free = true ∧ req ≤ b.size then
        .ret (.inr (takeBlock m b.addr req, wrap32 (b.addr + 8)))
      else .ret (.inl (next m b.addr)) := by
  rw [kmallocBody, if_neg h0, hw, isFree_word h4, sizeOf_word h4]

/-- The search of `kmalloc` over a segment that ends at the end of the heap. -/
theorem kmalloc_walk {m : Mem} (req : Nat) {a : Nat} {bs : List Block} (ha : heapStart ≤ a)
    (h : Seg m a bs heapEnd) : ∀ fuel, bs.length < fuel →
    (Exec.loop (kmallocBody m req) fuel (link a) = .ret (m, 0) ∧
        ∀ b ∈ bs, b.free = true → b.size < req) ∨
      ∃ pre b post, bs = pre ++ b :: post ∧ b.free = true ∧ req ≤ b.size ∧
        (∀ c ∈ pre, c.free = true → c.size < req) ∧
        Exec.loop (kmallocBody m req) fuel (link a) =
          .ret (takeBlock m b.addr req, b.addr + 8) := by
  induction bs generalizing a with
  | nil =>
      intro fuel hf
      obtain ⟨fuel, rfl⟩ : ∃ k, fuel = k + 1 := ⟨fuel - 1, by simp at hf; omega⟩
      left
      have : link a = 0 := if_pos h
      refine ⟨?_, by simp⟩
      rw [this, Exec.loop_leave]
      rfl
  | cons b bs ih =>
      intro fuel hf
      obtain ⟨fuel, rfl⟩ : ∃ k, fuel = k + 1 := ⟨fuel - 1, by simp at hf; omega⟩
      obtain ⟨rfl, h4, hw, hn, hrest⟩ := h
      have hlen := seg_length_le hrest
      have hstop : b.stop = b.addr + 8 + b.size := rfl
      obtain ⟨hlink, h0⟩ := link_ne_zero ha (by omega)
      have hbody := kmallocBody_at req h4 hw h0
      by_cases hfit : b.free = true ∧ req ≤ b.size
      · right
        refine ⟨[], b, bs, rfl, hfit.1, hfit.2, by simp, ?_⟩
        have hwrap : wrap32 (b.addr + 8) = b.addr + 8 :=
          Nat.mod_eq_of_lt (by have : heapEnd = 0x800000 := rfl; omega)
        rw [hlink, Exec.loop_leave (by rw [hbody, if_pos hfit]), hwrap]
      · have hskip : b.free = true → b.size < req := fun hfr => by
          by_contra hc
          exact hfit ⟨hfr, by omega⟩
        rw [hlink, Exec.loop_again (by rw [hbody, if_neg hfit]), hn]
        rcases ih (by omega) hrest fuel (by simp at hf; omega) with ⟨h1, h2⟩ |
          ⟨pre, c, post, rfl, hc1, hc2, hpre, hr⟩
        · exact Or.inl ⟨h1, by simpa using ⟨hskip, h2⟩⟩
        · refine Or.inr ⟨b :: pre, c, post, rfl, hc1, hc2, ?_, hr⟩
          simpa using ⟨hskip, hpre⟩

/-- Carving a free block out of a layout makes its payload address live. -/
theorem layout_carve {m m' : Mem} {pre post : List Block} {b : Block} {live : Finset Nat}
    {req : Nat} (h : Layout m (pre ++ b :: post) live) (hb : b.free = true)
    (hseg : Seg m' heapStart (pre ++ (carve b req ++ post)) heapEnd) :
    Layout m' (pre ++ (carve b req ++ post)) (insert (b.addr + 8) live) := by
  have hnt := h.noTwoFree
  rw [List.isChain_append, List.isChain_cons] at hnt
  obtain ⟨hpre, ⟨hpost1, hpost⟩, hmid⟩ := hnt
  refine ⟨hseg, ?_, fun p => ?_⟩
  · rw [List.isChain_append]
    -- the rest that is split off is followed by a block in use, since `b` was free
    have hrest : ∀ c ∈ post.head?, c.free = false := fun c hc => hpost1 c hc hb
    refine ⟨hpre, ?_, ?_⟩
    · unfold carve
      split
      · simpa [List.isChain_cons] using ⟨hrest, hpost⟩
      · simpa [List.isChain_cons] using hpost
    · unfold carve
      split <;> simp
  · simp only [Finset.mem_insert, h.inUse p, List.mem_append, List.mem_cons]
    have hcarve : (∃ c ∈ carve b req, c.free = false ∧ p = c.addr + 8) ↔ p = b.addr + 8 := by
      unfold carve
      split <;> simp
    constructor
    · rintro (rfl | ⟨c, hc, hcf, rfl⟩)
      · obtain ⟨c, hc, hcf, hcp⟩ := hcarve.2 rfl
        exact ⟨c, Or.inr (Or.inl hc), hcf, hcp⟩
      · rcases hc with hc | rfl | hc
        · exact ⟨c, Or.inl hc, hcf, rfl⟩
        · exact absurd (hb.symm.trans hcf) (by simp)
        · exact ⟨c, Or.inr (Or.inr hc), hcf, rfl⟩
    · rintro ⟨c, hc, hcf, rfl⟩
      rcases hc with hc | hc | hc
      · exact Or.inr ⟨c, Or.inl hc, hcf, rfl⟩
      · exact Or.inl (hcarve.1 ⟨c, hc, hcf, rfl⟩)
      · exact Or.inr ⟨c, Or.inr (Or.inr hc), hcf, rfl⟩

/-- **What `kmalloc` does to a layout.**  It returns on every fuel above the
number of blocks.  Either it returns `NULL`, changes nothing, and every free
block is too small; or it carves the first free block that is large enough. -/
theorem kmalloc_spec {m : Mem} {bs : List Block} {live : Finset Nat} (h : Layout m bs live)
    (n : Nat) {fuel : Nat} (hf : bs.length < fuel) :
    (kmalloc fuel m n = .ret (m, 0) ∧ ∀ b ∈ bs, b.free = true → b.size < roundUp4 n) ∨
      ∃ pre b post, bs = pre ++ b :: post ∧ b.free = true ∧ roundUp4 n ≤ b.size ∧
        (∀ c ∈ pre, c.free = true → c.size < roundUp4 n) ∧
        kmalloc fuel m n = .ret (takeBlock m b.addr (roundUp4 n), b.addr + 8) ∧
        Layout (takeBlock m b.addr (roundUp4 n)) (pre ++ (carve b (roundUp4 n) ++ post))
          (insert (b.addr + 8) live) := by
  have hlink : link heapStart = heapStart := rfl
  rcases kmalloc_walk (roundUp4 n) (le_refl _) h.seg fuel hf with hfull |
    ⟨pre, b, post, rfl, hb, hle, hpre, hret⟩
  · exact Or.inl (by rwa [hlink] at hfull)
  · rw [hlink] at hret
    refine Or.inr ⟨pre, b, post, rfl, hb, hle, hpre, hret, layout_carve h hb ?_⟩
    obtain ⟨hs1, h4, hw, hn, hs2⟩ := seg_split.1 h.seg
    have hend := (h.block b (by simp)).2.1
    exact seg_replace hs1 (takeBlock_seg h4 hw hn hend (dvd_roundUp4 n) hle) hs2
      (fun x hx => takeBlock_outside h4 hw hend hle hx)

/-! ## Release -/

/-- The block that merging two neighbours makes. -/
def Block.merge (b c : Block) : Block := ⟨b.addr, b.size + c.size + 8, true⟩

/-- A header that is rewritten to one block reaching to the end of its neighbour
makes one segment of the two. -/
theorem merge_seg {m : Mem} {b c : Block} (hb : 4 ∣ b.size) (hc : 4 ∣ c.size)
    (hc0 : b.stop = c.addr) (hend : c.stop ≤ heapEnd) {v : Nat} (hv : v = link c.stop) :
    Seg (store (store m b.addr (markFree (wrap32 (b.size + c.size + 8)))) (b.addr + 4) v)
      b.addr [b.merge c] c.stop := by
  have h1 : b.stop = b.addr + 8 + b.size := rfl
  have h2 : c.stop = c.addr + 8 + c.size := rfl
  have hhe : heapEnd = 0x800000 := rfl
  have hwrap : wrap32 (b.size + c.size + 8) = b.size + c.size + 8 :=
    Nat.mod_eq_of_lt (by omega)
  have h4 : 4 ∣ b.size + c.size + 8 := by omega
  have hstop : (b.merge c).stop = c.stop := by
    simp only [Block.merge, Block.stop] at *
    omega
  refine ⟨rfl, h4, ?_, ?_, hstop⟩
  · rw [hwrap, markFree_word h4 b.addr]
    simp [store, Block.merge]
  · simp [store, next, hstop, hv]

/-- What the forward merge makes of a freed block and the blocks behind it. -/
def mergeForward (b : Block) : List Block → Block × List Block
  | [] => (⟨b.addr, b.size, true⟩, [])
  | c :: post =>
      if c.free then (b.merge c, post) else (⟨b.addr, b.size, true⟩, c :: post)

/-- The list that the backward merge leaves, when `d` is the freed block. -/
def mergeBackward : List Block → Block → List Block → List Block
  | [], d, post => d :: post
  | [q], d, post => if q.free then q.merge d :: post else q :: d :: post
  | q :: r :: pre, d, post => q :: mergeBackward (r :: pre) d post

/-- The forward merge, on the segment that starts with the freed block. -/
theorem forwardMerge_seg {m : Mem} {b : Block} {post : List Block} (hb : b.free = true)
    (ha : heapStart ≤ b.addr) (h : Seg m b.addr (b :: post) heapEnd) :
    Seg (forwardMerge m b.addr) b.addr
        ((mergeForward b post).1 :: (mergeForward b post).2) heapEnd ∧
      ∀ x, forwardMerge m b.addr x = m x ∨ x = b.addr ∨ (x = b.addr + 4 ∧ b.stop ≠ heapEnd) := by
  obtain ⟨-, h4, hw, hn, hrest⟩ := h
  have hself : (⟨b.addr, b.size, true⟩ : Block) = b := by rw [← hb]
  have hstop : b.stop = b.addr + 8 + b.size := rfl
  cases post with
  | nil =>
      have hlast : b.stop = heapEnd := hrest
      have hz : next m b.addr = 0 := by rw [hn, link, if_pos hlast]
      simp only [forwardMerge, hz, ne_eq, not_true_eq_false, false_and, if_false, mergeForward,
        hself]
      exact ⟨⟨rfl, h4, hw, hn, hrest⟩, fun _ => Or.inl trivial⟩
  | cons c post =>
      obtain ⟨hc, hc4, hcw, hcn, hpost⟩ := hrest
      have hlen := seg_length_le hpost
      have hcstop : c.stop = c.addr + 8 + c.size := rfl
      have hnext : next m b.addr = c.addr := by
        rw [hn, hc.symm, (link_ne_zero (by omega) (by omega)).1]
      have hc0 : c.addr ≠ 0 := (link_ne_zero (by omega) (by omega : c.addr < heapEnd)).2
      rw [← hc] at hcw hcn
      simp only [forwardMerge, hnext, hcw, isFree_word hc4, sizeOf_word hc4, hw, sizeOf_word h4,
        mergeForward]
      by_cases hcf : c.free = true
      · rw [if_pos ⟨hc0, hcf⟩, if_pos hcf]
        have hv : next (store m b.addr (markFree (wrap32 (b.size + c.size + 8)))) c.addr =
            link c.stop := by
          rw [next, store, Function.update_of_ne (by omega), ← hcn, next]
        refine ⟨?_, fun x => ?_⟩
        · have hmid := merge_seg (m := m) h4 hc4 hc.symm (by omega) hv
          rw [← List.singleton_append, seg_append]
          refine ⟨c.stop, hmid, seg_congr ?_ hpost⟩
          intro x hx _
          simp only [store]
          rw [Function.update_of_ne (by omega), Function.update_of_ne (by omega)]
        · by_cases hx4 : x = b.addr + 4
          · exact Or.inr (Or.inr ⟨hx4, by omega⟩)
          · by_cases hx : x = b.addr
            · exact Or.inr (Or.inl hx)
            · simp only [store]
              rw [Function.update_of_ne hx4, Function.update_of_ne hx]
              exact Or.inl rfl
      · rw [if_neg (fun hcon => hcf hcon.2), if_neg hcf, hself]
        exact ⟨⟨rfl, h4, hw, hn, hc, hc4, by rw [← hc, hcw], by rw [← hc, hcn], hpost⟩,
          fun _ => Or.inl rfl⟩

/-- Behind the freed block, the backward walk finds nothing to merge. -/
theorem backward_walk_behind {m : Mem} {header a : Nat} {b : Block} {bs : List Block}
    (hh : header ≤ a) (ha : heapStart ≤ a) (h : Seg m a (b :: bs) heapEnd) :
    ∀ fuel, bs.length < fuel → Exec.loop (backwardBody m header) fuel a = .ret m := by
  induction bs generalizing a b with
  | nil =>
      intro fuel hf
      obtain ⟨fuel, rfl⟩ : ∃ k, fuel = k + 1 := ⟨fuel - 1, by simp at hf; omega⟩
      obtain ⟨rfl, -, -, hn, hend⟩ := h
      have hlast : b.stop = heapEnd := hend
      have hz : next m b.addr = 0 := by rw [hn, link, if_pos hlast]
      rw [Exec.loop_leave]
      rw [backwardBody, hz, if_neg (by simp)]
  | cons c bs ih =>
      intro fuel hf
      obtain ⟨fuel, rfl⟩ : ∃ k, fuel = k + 1 := ⟨fuel - 1, by simp at hf; omega⟩
      obtain ⟨rfl, -, -, hn, hrest⟩ := h
      have hlen := seg_length_le hrest
      have hstop : b.stop = b.addr + 8 + b.size := rfl
      simp only [List.length_cons] at hlen hf
      obtain ⟨hl, h0⟩ := link_ne_zero (a := b.stop) (by omega) (by omega)
      have hb0 : b.addr ≠ 0 := (link_ne_zero (a := b.addr) ha (by omega)).2
      have hgo : backwardBody m header b.addr = .ret (.inl b.stop) := by
        rw [backwardBody, hn, hl, if_pos ⟨hb0, h0⟩, if_neg (by omega)]
      rw [Exec.loop_again hgo]
      exact ih (by omega) (by omega) hrest fuel (by omega)

/-- The backward merge, on a segment in which the freed block is `d`. -/
theorem backward_walk {m : Mem} {a : Nat} {pre post : List Block} {d : Block}
    (ha : heapStart ≤ a) (h : Seg m a (pre ++ d :: post) heapEnd) :
    ∀ fuel, (pre ++ d :: post).length ≤ fuel →
      ∃ m', Exec.loop (backwardBody m d.addr) fuel a = .ret m' ∧
        Seg m' a (mergeBackward pre d post) heapEnd ∧
        ∀ x, m' x = m x ∨ ∃ c ∈ pre, (x = c.addr ∧ m' x % 2 = 1) ∨ x = c.addr + 4 := by
  induction pre generalizing a with
  | nil =>
      intro fuel hf
      refine ⟨m, ?_, h, fun _ => Or.inl rfl⟩
      obtain ⟨hda, -⟩ := id h
      exact backward_walk_behind (by omega) ha h fuel (by simp at hf; omega)
  | cons q pre ih =>
      intro fuel hf
      obtain ⟨fuel, rfl⟩ : ∃ k, fuel = k + 1 := ⟨fuel - 1, by simp at hf; omega⟩
      rw [List.cons_append] at h
      obtain ⟨rfl, hq4, hqw, hqn, hrest⟩ := h
      have hlen := seg_length_le hrest
      have hstop : q.stop = q.addr + 8 + q.size := rfl
      simp only [List.length_append, List.length_cons] at hlen hf
      obtain ⟨hl, h0⟩ := link_ne_zero (a := q.stop) (by omega) (by omega)
      have hq0 : q.addr ≠ 0 := (link_ne_zero (a := q.addr) ha (by omega)).2
      have hcond : q.addr ≠ 0 ∧ next m q.addr ≠ 0 := ⟨hq0, by rw [hqn, hl]; exact h0⟩
      cases pre with
      | nil =>
          -- `q` is the block in front of the freed one
          obtain ⟨hdq, hd4, hdw, hdn, hpost⟩ := hrest
          have hplen := seg_length_le hpost
          have hdstop : d.stop = d.addr + 8 + d.size := rfl
          rw [← hdq] at hdw hdn
          have hfound : next m q.addr = d.addr := by rw [hqn, hl, hdq]
          refine ⟨mergeInto m q.addr d.addr, ?_, ?_, fun x => ?_⟩
          · rw [Exec.loop_leave]
            rw [backwardBody, if_pos hcond, if_pos hfound]
          · simp only [mergeInto, hqw, isFree_word hq4, sizeOf_word hq4, hdw, sizeOf_word hd4,
              mergeBackward]
            split
            · have hv : next (store m q.addr (markFree (wrap32 (q.size + d.size + 8)))) d.addr =
                  link d.stop := by
                rw [next, store, Function.update_of_ne (by omega), ← hdn, next]
              have hmid := merge_seg (m := m) hq4 hd4 hdq.symm (by omega) hv
              rw [← List.singleton_append, seg_append]
              refine ⟨d.stop, hmid, seg_congr ?_ hpost⟩
              intro x hx _
              simp only [store]
              rw [Function.update_of_ne (by omega), Function.update_of_ne (by omega)]
            · exact ⟨rfl, hq4, hqw, hqn, hdq, hd4, by rw [← hdq, hdw], by rw [← hdq, hdn], hpost⟩
          · simp only [mergeInto]
            split
            · by_cases hx4 : x = q.addr + 4
              · exact Or.inr ⟨q, by simp, Or.inr hx4⟩
              · simp only [store]
                rw [Function.update_of_ne hx4]
                by_cases hx : x = q.addr
                · refine Or.inr ⟨q, by simp, Or.inl ⟨hx, ?_⟩⟩
                  rw [hx, Function.update_self, markFree]
                  omega
                · exact Or.inl (Function.update_of_ne hx _ _)
            · exact Or.inl rfl
      | cons r pre =>
          have hr : r.addr = q.stop := hrest.1
          have hrd : r.stop ≤ d.addr := by
            have := seg_pairwise hrest
            rw [List.cons_append, List.pairwise_cons] at this
            exact this.1 d (by simp)
          have hrstop : r.stop = r.addr + 8 + r.size := rfl
          have hskip : backwardBody m d.addr q.addr = .ret (.inl q.stop) := by
            rw [backwardBody, if_pos hcond, hqn, hl, if_neg (by omega)]
          obtain ⟨m', hret, hseg, hframe⟩ := ih (by omega) hrest fuel
            (by simp only [List.length_append, List.length_cons] at hf ⊢; omega)
          refine ⟨m', by rw [Exec.loop_again hskip, hret], ?_, ?_⟩
          · -- the header of `q` is in front of everything that was written
            have hsame : ∀ x, x < q.stop → m' x = m x := by
              intro x hx
              rcases hframe x with heq | ⟨c, hc, hxc⟩
              · exact heq
              · have := seg_addr_ge hrest c (List.mem_append_left _ hc)
                omega
            refine ⟨rfl, hq4, ?_, ?_, hseg⟩
            · rw [hsame _ (by omega), hqw]
            · rw [next, hsame _ (by omega), ← hqn, next]
          · intro x
            exact (hframe x).imp_right fun ⟨c, hc, hxc⟩ => ⟨c, List.mem_cons_of_mem _ hc, hxc⟩

theorem mergeForward_fst (b : Block) (post : List Block) :
    (mergeForward b post).1.addr = b.addr ∧ (mergeForward b post).1.free = true := by
  cases post with
  | nil => exact ⟨rfl, rfl⟩
  | cons c post =>
      rw [mergeForward]
      split <;> exact ⟨rfl, rfl⟩

theorem mergeForward_length (b : Block) (post : List Block) :
    (mergeForward b post).2.length ≤ post.length := by
  cases post with
  | nil => exact le_refl _
  | cons c post =>
      rw [mergeForward]
      split <;> simp

/-- The forward merge loses no block in use. -/
theorem mem_mergeForward {b c : Block} {post : List Block} (hc : c.free = false) :
    c ∈ (mergeForward b post).2 ↔ c ∈ post := by
  cases post with
  | nil => rfl
  | cons d post =>
      unfold mergeForward
      by_cases hd : d.free = true
      · have : c ≠ d := fun hcd => by rw [hcd, hd] at hc; simp at hc
        simp [hd, this]
      · simp [hd]

/-- Neither does the backward merge. -/
theorem mem_mergeBackward {pre post : List Block} {c d : Block} (hd : d.free = true)
    (hc : c.free = false) : c ∈ mergeBackward pre d post ↔ c ∈ pre ∨ c ∈ post := by
  have hne : ∀ q : Block, q.free = true → c ≠ q := fun q hq hcq => by
    rw [hcq, hq] at hc; simp at hc
  induction pre with
  | nil => simp [mergeBackward, hne d hd]
  | cons q pre ih =>
      cases pre with
      | nil =>
          unfold mergeBackward
          by_cases hq : q.free = true
          · simp [hq, hne q hq, hne (q.merge d) rfl]
          · simp [hq, hne d hd]
      | cons r pre => simp only [mergeBackward, List.mem_cons, ih, or_assoc]

/-- After the forward merge the freed block is not followed by a free one. -/
theorem mergeForward_isChain {b : Block} {post : List Block}
    (h : (b :: post).IsChain (fun b c => b.free = true → c.free = false)) :
    ((mergeForward b post).1 :: (mergeForward b post).2).IsChain
      (fun b c => b.free = true → c.free = false) := by
  cases post with
  | nil => simp [mergeForward]
  | cons c post =>
      rw [List.isChain_cons_cons] at h
      rw [mergeForward]
      by_cases hc : c.free = true
      · have hrest := h.2
        rw [List.isChain_cons] at hrest
        rw [if_pos hc, List.isChain_cons]
        exact ⟨fun x hx _ => hrest.1 x hx hc, hrest.2⟩
      · rw [if_neg hc, List.isChain_cons_cons]
        exact ⟨fun _ => by simpa using hc, h.2⟩

/-- The backward merge keeps the free flag of the first block. -/
theorem mergeBackward_head (q : Block) (pre post : List Block) (d : Block) :
    ∃ q' rest, mergeBackward (q :: pre) d post = q' :: rest ∧ q'.free = q.free := by
  cases pre with
  | nil =>
      rw [mergeBackward]
      by_cases hq : q.free = true
      · exact ⟨q.merge d, post, if_pos hq, hq.symm⟩
      · exact ⟨q, d :: post, if_neg hq, rfl⟩
  | cons r pre => exact ⟨q, _, rfl, rfl⟩

/-- After the backward merge no two neighbours are free. -/
theorem mergeBackward_isChain {pre post : List Block} {d : Block} (hd : d.free = true)
    (hpre : pre.IsChain (fun b c => b.free = true → c.free = false))
    (hpost : (d :: post).IsChain (fun b c => b.free = true → c.free = false)) :
    (mergeBackward pre d post).IsChain (fun b c => b.free = true → c.free = false) := by
  induction pre with
  | nil => exact hpost
  | cons q pre ih =>
      cases pre with
      | nil =>
          rw [mergeBackward]
          by_cases hq : q.free = true
          · rw [if_pos hq]
            rw [List.isChain_cons] at hpost ⊢
            exact ⟨fun c hc _ => hpost.1 c hc hd, hpost.2⟩
          · rw [if_neg hq, List.isChain_cons_cons]
            exact ⟨fun h => absurd h hq, hpost⟩
      | cons r pre =>
          rw [List.isChain_cons_cons] at hpre
          have htail := ih hpre.2
          obtain ⟨r', rest, heq, hfree⟩ := mergeBackward_head r pre post d
          rw [mergeBackward]
          rw [heq] at htail ⊢
          rw [List.isChain_cons_cons, hfree]
          exact ⟨hpre.1, htail⟩

/-- The blocks after a block `b` between `pre` and `post` has been freed. -/
def released (pre : List Block) (b : Block) (post : List Block) : List Block :=
  mergeBackward pre (mergeForward b post).1 (mergeForward b post).2

theorem kmalloc_mono {m m' : Mem} {n p fuel fuel' : Nat} (h : kmalloc fuel m n = .ret (m', p))
    (hle : fuel ≤ fuel') : kmalloc fuel' m n = .ret (m', p) :=
  Exec.loop_mono h hle

theorem kfree_of_le (m : Mem) (ptr : Nat) {fuel fuel' : Nat} (hle : fuel ≤ fuel') :
    kfree fuel m ptr = .spin ∨ kfree fuel' m ptr = kfree fuel m ptr := by
  simp only [kfree]
  generalize wrap32 (ptr + 2 ^ 32 - 8) = header
  split_ifs
  · exact Or.inr rfl
  · exact Or.inr rfl
  · exact Or.inr rfl
  · exact Or.inr rfl
  · exact Exec.loop_of_le _ _ hle

theorem kfree_mono {m m' : Mem} {p fuel fuel' : Nat} (h : kfree fuel m p = .ret m')
    (hle : fuel ≤ fuel') : kfree fuel' m p = .ret m' := by
  rcases kfree_of_le m p hle with hspin | heq
  · rw [h] at hspin
    simp at hspin
  · rw [heq, h]

/-- From `m` to `m'` only header words of `bs` have changed: the first word of a header has
become odd, and its second word has changed only where there was a block behind it. -/
def Relinked (bs : List Block) (m m' : Mem) : Prop :=
  ∀ x, m' x = m x ∨
    ∃ c ∈ bs, (x = c.addr ∧ m' x % 2 = 1) ∨ (x = c.addr + 4 ∧ c.stop ≠ heapEnd)

/-- Words that belong to no header are as before. -/
theorem Relinked.eq_of_ne {bs : List Block} {m m' : Mem} (h : Relinked bs m m') (x : Nat)
    (hx : ∀ c ∈ bs, x ≠ c.addr ∧ x ≠ c.addr + 4) : m' x = m x := by
  rcases h x with heq | ⟨c, hc, ⟨hxc, -⟩ | ⟨hxc, -⟩⟩
  · exact heq
  · exact absurd hxc (hx c hc).1
  · exact absurd hxc (hx c hc).2

/-- **What `kfree` does to a layout.**  A live pointer is the payload of a block
in use.  If that block is empty, `kfree` takes it for a corrupted header and
panics; otherwise it returns, on every fuel that covers the number of blocks,
with the block merged into its free neighbours.  Only words of block headers
have changed, and the freed header keeps its free mark even when its block is
merged into another one. -/
theorem kfree_spec {m : Mem} {bs : List Block} {live : Finset Nat} (h : Layout m bs live)
    {p : Nat} (hp : p ∈ live) {fuel : Nat} (hf : bs.length ≤ fuel) :
    ∃ pre b post, bs = pre ++ b :: post ∧ b.free = false ∧ p = b.addr + 8 ∧
      ((b.size = 0 ∧ kfree fuel m p = .panic (corruptedHeader p)) ∨
        (b.size ≠ 0 ∧ ∃ m', kfree fuel m p = .ret m' ∧
          Layout m' (released pre b post) (live.erase p) ∧ Relinked bs m m' ∧
          m' b.addr % 2 = 1)) := by
  obtain ⟨b, hb, hbf, rfl⟩ := (h.inUse p).1 hp
  obtain ⟨pre, post, rfl⟩ := List.append_of_mem hb
  refine ⟨pre, b, post, rfl, hbf, rfl, ?_⟩
  obtain ⟨hlo, hhi, -, h4⟩ := h.block b hb
  obtain ⟨hs1, -, hw, hn, hs2⟩ := seg_split.1 h.seg
  have hstop : b.stop = b.addr + 8 + b.size := rfl
  have hstart : heapStart = 0x400000 := rfl
  have hend : heapEnd = 0x800000 := rfl
  have hhdr : wrap32 (b.addr + 8 + 2 ^ 32 - 8) = b.addr := by unfold wrap32; omega
  have hguard : kfree fuel m (b.addr + 8) =
      if b.size = 0 then .panic (corruptedHeader (b.addr + 8))
      else Exec.loop (backwardBody (forwardMerge
        (store m b.addr (markFree b.word)) b.addr) b.addr) fuel heapStart := by
    simp only [kfree, hhdr]
    rw [if_neg (by omega), if_neg (by omega), hw, isFree_word h4, sizeOf_word h4,
      if_neg (by simp [hbf])]
  by_cases h0 : b.size = 0
  · exact Or.inl ⟨h0, by rw [hguard, if_pos h0]⟩
  refine Or.inr ⟨h0, ?_⟩
  rw [hguard, if_neg h0]
  -- mark the block free
  set m₁ := store m b.addr (markFree b.word) with hm₁
  have hm₁x : ∀ x, x ≠ b.addr → m₁ x = m x := fun x hx => Function.update_of_ne hx _ _
  have hword : m₁ b.addr = (Block.mk b.addr b.size true).word := by
    rw [hm₁, store, Function.update_self, ← markFree_word h4]
    simp [markFree, Block.word, hbf]
  have hseg₁ : Seg m₁ b.addr (⟨b.addr, b.size, true⟩ :: post) heapEnd := by
    refine ⟨rfl, h4, hword, ?_, seg_congr (a := b.stop) (fun x hx _ => hm₁x x (by omega)) hs2⟩
    rw [next] at hn ⊢
    rw [hm₁x _ (by omega), hn]
    rfl
  -- merge it with the block behind it
  obtain ⟨hseg₂, hframe₂⟩ :=
    forwardMerge_seg (b := ⟨b.addr, b.size, true⟩) rfl hlo hseg₁
  have hfst := mergeForward_fst b post
  have hfwd : mergeForward ⟨b.addr, b.size, true⟩ post = mergeForward b post := by
    cases post <;> rfl
  rw [hfwd] at hseg₂
  simp only at hseg₂ hframe₂
  set m₂ := forwardMerge m₁ b.addr with hm₂
  have hm₂x : ∀ x, x ≠ b.addr → m₂ x = m x ∨ (x = b.addr + 4 ∧ b.stop ≠ heapEnd) := by
    intro x hx
    rcases hframe₂ x with heq | hxb | hx4
    · exact Or.inl (heq.trans (hm₁x x hx))
    · exact absurd hxb hx
    · exact Or.inr hx4
  have hs1' : Seg m₂ heapStart pre b.addr := seg_congr (fun x _ hx => by
    rcases hm₂x x (by omega) with heq | ⟨hx4, -⟩
    · exact heq
    · omega) hs1
  have hseg₃ : Seg m₂ heapStart (pre ++ (mergeForward b post).1 :: (mergeForward b post).2)
      heapEnd := seg_append.2 ⟨b.addr, hs1', hseg₂⟩
  -- and with the block in front of it
  have hlen : (pre ++ (mergeForward b post).1 :: (mergeForward b post).2).length ≤ fuel := by
    have := mergeForward_length b post
    simp only [List.length_append, List.length_cons] at hf ⊢
    omega
  obtain ⟨m', hret, hseg', hframe'⟩ := backward_walk (le_refl _) hseg₃ fuel hlen
  rw [hfst.1] at hret
  have hnt := h.noTwoFree
  rw [List.isChain_append] at hnt
  have hodd₂ : m₂ b.addr % 2 = 1 := by
    obtain ⟨-, hd4, hdw, -⟩ := hseg₂
    rw [hdw, Block.word, hfst.2, Bool.toNat_true]
    omega
  have hfront : ∀ c ∈ pre, c.addr + 8 ≤ b.addr ∧ c.stop ≠ heapEnd := by
    intro c hc
    have hpw := seg_pairwise h.seg
    rw [List.pairwise_append] at hpw
    have := hpw.2.2 c hc b (by simp)
    have hcs : c.stop = c.addr + 8 + c.size := rfl
    omega
  refine ⟨m', hret, ⟨hseg', ?_, fun q => ?_⟩, fun x => ?_, ?_⟩
  · exact mergeBackward_isChain hfst.2 hnt.1 (mergeForward_isChain hnt.2.1)
  · -- the other blocks in use keep their addresses, which differ from `b.addr`
    have hdist : ∀ c, c ∈ pre ∨ c ∈ post → c.addr ≠ b.addr := by
      have hpw := seg_pairwise h.seg
      rw [List.pairwise_append, List.pairwise_cons] at hpw
      rintro c (hc | hc)
      · have := hpw.2.2 c hc b (by simp)
        have hcs : c.stop = c.addr + 8 + c.size := rfl
        omega
      · have := hpw.2.1.1 c hc
        omega
    rw [Finset.mem_erase, h.inUse q]
    constructor
    · rintro ⟨hne, c, hc, hcf, rfl⟩
      have hcb : c ≠ b := fun hcb => hne (by rw [hcb])
      have hc' : c ∈ pre ∨ c ∈ post := by simpa [hcb] using hc
      exact ⟨c, (mem_mergeBackward hfst.2 hcf).2 (hc'.imp_right (mem_mergeForward hcf).2), hcf, rfl⟩
    · rintro ⟨c, hc, hcf, rfl⟩
      have hc' : c ∈ pre ∨ c ∈ post :=
        ((mem_mergeBackward hfst.2 hcf).1 hc).imp_right (mem_mergeForward hcf).1
      refine ⟨fun heq => hdist c hc' (by omega), c, ?_, hcf, rfl⟩
      rcases hc' with hc' | hc' <;> simp [hc']
  · rcases hframe' x with heq | ⟨c, hc, hxc | hxc⟩
    · -- the word is as the forward merge has left it
      by_cases hxb : x = b.addr
      · exact Or.inr ⟨b, by simp, Or.inl ⟨hxb, by rw [heq, hxb, hodd₂]⟩⟩
      · rw [heq]
        exact (hm₂x x hxb).imp_right fun hx4 => ⟨b, by simp, Or.inr hx4⟩
    · exact Or.inr ⟨c, by simp [hc], Or.inl hxc⟩
    · -- every block in front of `b` has a block behind it
      exact Or.inr ⟨c, by simp [hc], Or.inr ⟨hxc, (hfront c hc).2⟩⟩
  · rcases hframe' b.addr with heq | ⟨c, hc, hxc | hxc⟩
    · rw [heq, hodd₂]
    · exact hxc.2
    · have := hfront c hc
      omega

end BenmoshOS.Heap
