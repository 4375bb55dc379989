import BenmoshOS.Heap.Invariant

/-!
# The kernel heap: what its callers rely on

The callers of the allocator do not look at blocks.  They know the set of live
pointers and the size of each payload, and they rely on the contents of the
payloads they own.  This file states the four entry points in those terms:
`kmalloc` adds a fresh pointer, `kfree` takes one away, and neither touches the
payload of any other live pointer or a word outside the heap.
-/

namespace BenmoshOS.Heap

open Exec

/-- The heap is laid out, with the given live pointers. -/
def Holds (m : Mem) (live : Finset Nat) : Prop := ∃ bs, Layout m bs live

/-- The payload behind `q` has kept its size and its contents. -/
def KeepsPayload (m m' : Mem) (q : Nat) : Prop :=
  payloadSize m' q = payloadSize m q ∧ ∀ x, q ≤ x → x < q + payloadSize m q → m' x = m x

/-- Nothing outside the heap has changed. -/
def KeepsOutside (m m' : Mem) : Prop := ∀ x, x < heapStart ∨ heapEnd ≤ x → m' x = m x

theorem KeepsPayload.refl (m : Mem) (q : Nat) : KeepsPayload m m q := ⟨rfl, fun _ _ _ => rfl⟩

theorem KeepsPayload.trans {m₁ m₂ m₃ : Mem} {q : Nat} (h₁ : KeepsPayload m₁ m₂ q)
    (h₂ : KeepsPayload m₂ m₃ q) : KeepsPayload m₁ m₃ q :=
  ⟨h₂.1.trans h₁.1, fun x hx hxs => by
    rw [h₂.2 x hx (by rw [h₁.1]; exact hxs), h₁.2 x hx hxs]⟩

theorem KeepsOutside.refl (m : Mem) : KeepsOutside m m := fun _ _ => rfl

theorem KeepsOutside.trans {m₁ m₂ m₃ : Mem} (h₁ : KeepsOutside m₁ m₂)
    (h₂ : KeepsOutside m₂ m₃) : KeepsOutside m₁ m₃ := fun x hx => by
  rw [h₂ x hx, h₁ x hx]

/-- A pointer that is live lies in the heap, behind a header. -/
theorem Holds.inside {m : Mem} {live : Finset Nat} (h : Holds m live) {p : Nat} (hp : p ∈ live) :
    4 ∣ p ∧ heapStart + 8 ≤ p ∧ p + payloadSize m p ≤ heapEnd := by
  obtain ⟨bs, hbs⟩ := h
  exact hbs.inside hp

/-- As many blocks as fit into the heap, if they all were empty. -/
def maxBlocks : Nat := heapSize / 8

theorem Layout.length_le {m : Mem} {bs : List Block} {live : Finset Nat} (h : Layout m bs live) :
    bs.length ≤ maxBlocks := by
  have hlen := seg_length_le h.seg
  unfold heapStart heapEnd at hlen
  unfold maxBlocks heapSize
  omega

/-- There are at most as many live pointers as blocks. -/
theorem Holds.card_le {m : Mem} {live : Finset Nat} (h : Holds m live) :
    live.card ≤ maxBlocks := by
  obtain ⟨bs, hbs⟩ := h
  have hlen := hbs.length_le
  have hsub : live ⊆ (bs.map fun b => b.addr + 8).toFinset := by
    intro p hp
    obtain ⟨b, hb, -, rfl⟩ := (hbs.inUse p).1 hp
    simpa using ⟨b, hb, rfl⟩
  have hcard := (Finset.card_le_card hsub).trans (List.toFinset_card_le _)
  rw [List.length_map] at hcard
  omega

/-- Memory that agrees on the headers' payload sizes keeps the live payloads:
a change of header words only. -/
theorem Layout.keepsPayload {m m' : Mem} {bs bs' : List Block} {live live' : Finset Nat}
    (h : Layout m bs live) (h' : Layout m' bs' live')
    (hm : ∀ x, (∀ c ∈ bs, x ≠ c.addr ∧ x ≠ c.addr + 4) → m' x = m x) {b : Block} (hb : b ∈ bs)
    (hb' : b ∈ bs') : KeepsPayload m m' (b.addr + 8) := by
  refine ⟨by rw [h'.payloadSize_eq hb', h.payloadSize_eq hb], fun x hx hxs => ?_⟩
  rw [h.payloadSize_eq hb] at hxs
  exact hm x (h.payload_ne_header hb hx hxs)

/-! ## Writes of the callers -/

/-- Memory that agrees on the whole heap holds the same layout. -/
theorem Holds.congr {m m' : Mem} {live : Finset Nat} (h : Holds m live)
    (hm : ∀ x, heapStart ≤ x → x < heapEnd → m' x = m x) : Holds m' live := by
  obtain ⟨bs, hbs⟩ := h
  exact ⟨bs, seg_congr hm hbs.seg, hbs.noTwoFree, hbs.inUse⟩

theorem Holds.keepsPayload {m m' : Mem} {live : Finset Nat} (h : Holds m live)
    (hm : ∀ x, heapStart ≤ x → x < heapEnd → m' x = m x) {q : Nat} (hq : q ∈ live) :
    KeepsPayload m m' q := by
  obtain ⟨-, hlo, hhi⟩ := h.inside hq
  refine ⟨?_, fun x hx hxs => hm x (by omega) (by omega)⟩
  unfold payloadSize
  rw [hm _ (by omega) (by omega)]

/-- An owner's write into its payload keeps the layout and the other payloads. -/
theorem Holds.write {m : Mem} {live : Finset Nat} (h : Holds m live) {p a : Nat} (v : Nat)
    (hp : p ∈ live) (h1 : p ≤ a) (h2 : a < p + payloadSize m p) :
    Holds (store m a v) live ∧ (∀ q, q ∈ live → q ≠ p → KeepsPayload m (store m a v) q) ∧
      payloadSize (store m a v) p = payloadSize m p := by
  obtain ⟨bs, hbs⟩ := h
  refine ⟨⟨bs, hbs.write v hp h1 h2⟩, fun q hq hne => ⟨?_, fun x hx hxs => ?_⟩, ?_⟩
  · have := hbs.disjoint hp hq hne.symm
    have := (hbs.inside hq).2.1
    unfold payloadSize at *
    rw [store, Function.update_of_ne (by omega)]
  · have := hbs.disjoint hp hq hne.symm
    exact Function.update_of_ne (by omega) _ _
  · have := (hbs.inside hp).2.1
    unfold payloadSize
    rw [store, Function.update_of_ne (by omega)]

/-! ## The entry points -/

/-- What `kmalloc` leaves behind: `NULL` and nothing changed, or a fresh pointer
with room for the request. -/
def Allocated (m : Mem) (live : Finset Nat) (n : Nat) (r : Mem × Nat) : Prop :=
  (r.2 = 0 ∧ r.1 = m) ∨
    (r.2 ≠ 0 ∧ r.2 ∉ live ∧ Holds r.1 (insert r.2 live) ∧ roundUp4 n ≤ payloadSize r.1 r.2 ∧
      (∀ q ∈ live, KeepsPayload m r.1 q) ∧ KeepsOutside m r.1)

theorem kmalloc_safe {m : Mem} {live : Finset Nat} (h : Holds m live) (n fuel : Nat) :
    Safe (maxBlocks < fuel) (kmalloc fuel m n) (Allocated m live n) := by
  obtain ⟨bs, hbs⟩ := h
  have hlen := hbs.length_le
  -- on too little fuel the walk may still be running; otherwise the fuel does not matter
  rcases Exec.loop_of_le (kmallocBody m (roundUp4 n)) heapStart
    (Nat.le_max_left fuel (bs.length + 1)) with hspin | heq
  · have hshort : ¬ maxBlocks < fuel := fun hfuel => by
      have hlt : bs.length < fuel := by omega
      obtain ⟨r, hr⟩ := hbs.kmalloc_returns n hlt
      rw [kmalloc, hspin] at hr
      simp at hr
    rw [kmalloc, hspin]
    exact hshort
  · rw [kmalloc, ← heq, ← kmalloc]
    rcases kmalloc_spec hbs n (Nat.le_max_right fuel (bs.length + 1)) with ⟨hnone, -⟩ |
      ⟨pre, b, post, rfl, hb, hle, -, hsome, hlay⟩
    · rw [hnone]
      exact Or.inl ⟨rfl, rfl⟩
    · rw [hsome]
      clear hsome heq
      obtain ⟨-, h4, hw, -, -⟩ := seg_split.1 hbs.seg
      obtain ⟨hlo, hhi, -, -⟩ := hbs.block b (by simp)
      have hstart : heapStart = 0x400000 := rfl
      have hout : ∀ x, x < b.addr ∨ b.stop ≤ x → takeBlock m b.addr (roundUp4 n) x = m x :=
        fun x hx => takeBlock_outside h4 hw hhi hle hx
      refine Or.inr ⟨by simp, fun hmem => ?_, ⟨_, hlay⟩, ?_, fun q hq => ?_, fun x hx => ?_⟩
      · -- a live pointer is not the payload of a free block
        obtain ⟨c, hc, hcf, hcb⟩ := (hbs.inUse _).1 hmem
        have hpw := seg_pairwise hbs.seg
        rw [List.pairwise_append, List.pairwise_cons] at hpw
        have hcs : c.stop = c.addr + 8 + c.size := rfl
        have hbs' : b.stop = b.addr + 8 + b.size := rfl
        simp only at hcb
        rcases List.mem_append.1 hc with hc | hc
        · have := hpw.2.2 c hc b (by simp)
          omega
        · rcases List.mem_cons.1 hc with rfl | hc
          · rw [hb] at hcf; simp at hcf
          · have := hpw.2.1.1 c hc
            omega
      · have hmem : (carve b (roundUp4 n)).head? = some ⟨b.addr,
            if 24 ≤ b.size - roundUp4 n then roundUp4 n else b.size, false⟩ := by
          unfold carve
          split_ifs <;> rfl
        have hin : (⟨b.addr, if 24 ≤ b.size - roundUp4 n then roundUp4 n else b.size, false⟩ :
            Block) ∈ pre ++ (carve b (roundUp4 n) ++ post) := by
          simp [List.mem_of_mem_head? hmem]
        rw [hlay.payloadSize_eq hin]
        simp only
        split_ifs <;> omega
      · obtain ⟨c, hc, hcf, rfl⟩ := (hbs.inUse q).1 hq
        have hcb : c ≠ b := fun hcb => by rw [hcb, hb] at hcf; simp at hcf
        have hc' : c ∈ pre ∨ c ∈ post := by simpa [hcb] using hc
        have hin : c ∈ pre ++ (carve b (roundUp4 n) ++ post) := by
          rcases hc' with hc' | hc' <;> simp [hc']
        have hsize := hbs.payloadSize_eq hc
        refine ⟨by rw [hlay.payloadSize_eq hin, hsize], fun x hx hxs => hout x ?_⟩
        have hpw := seg_pairwise hbs.seg
        rw [List.pairwise_append, List.pairwise_cons] at hpw
        have hcs : c.stop = c.addr + 8 + c.size := rfl
        rcases hc' with hc' | hc'
        · have := hpw.2.2 c hc' b (by simp)
          omega
        · have := hpw.2.1.1 c hc'
          omega
      · exact hout x (by omega)

/-- What `kfree` leaves behind. -/
def Freed (m : Mem) (live : Finset Nat) (p : Nat) (m' : Mem) : Prop :=
  Holds m' (live.erase p) ∧ (∀ q ∈ live, q ≠ p → KeepsPayload m m' q) ∧ KeepsOutside m m'

/-- Freeing a live pointer with a payload does not panic. -/
theorem kfree_safe {m : Mem} {live : Finset Nat} (h : Holds m live) {p : Nat} (hp : p ∈ live)
    (hsize : payloadSize m p ≠ 0) (fuel : Nat) :
    Safe (maxBlocks < fuel) (kfree fuel m p) (Freed m live p) := by
  obtain ⟨bs, hbs⟩ := h
  obtain ⟨pre, b, post, rfl, hbf, hpb, hcase⟩ := kfree_spec hbs hp (Nat.le_max_right fuel bs.length)
  have hb : b ∈ pre ++ b :: post := by simp
  rw [hpb, hbs.payloadSize_eq hb] at hsize
  rcases hcase with ⟨hz, -⟩ | ⟨-, m', hret, hlay, hlinks, -⟩
  · exact absurd hz hsize
  have hframe := hlinks.eq_of_ne
  have hpost : Freed m live p m' := by
    refine ⟨⟨_, hlay⟩, fun q hq hne => ?_, fun x hx => hframe x fun c hc => ?_⟩
    · obtain ⟨c, hc, hcf, rfl⟩ := (hbs.inUse q).1 hq
      have hcb : c ≠ b := fun hcb => hne (by rw [hcb, hpb])
      have hc' : c ∈ pre ∨ c ∈ post := by simpa [hcb] using hc
      refine hbs.keepsPayload hlay hframe hc ?_
      rw [released, mem_mergeBackward (mergeForward_fst b post).2 hcf, mem_mergeForward hcf]
      exact hc'
    · obtain ⟨hlo, hhi, -, -⟩ := hbs.block c hc
      have hcs : c.stop = c.addr + 8 + c.size := rfl
      omega
  rcases kfree_of_le m p (Nat.le_max_left fuel _) with hspin | heq
  · have hlen := hbs.length_le
    rw [hspin]
    exact fun hfuel => hbs.kfree_ne_spin hp (by omega) hspin
  · rw [← heq, hret]
    exact hpost

/-! ## Aligned blocks -/

/-- The aligned address `a` with `size` bytes lies in the payload of `raw`, behind
the hidden pointer to `raw`. -/
structure AlignedIn (m : Mem) (raw size alignment a : Nat) : Prop where
  above : raw + 4 ≤ a
  room : a + size ≤ raw + payloadSize m raw
  aligned : alignment ∣ a
  tracker : m (a - 4) = raw

theorem AlignedIn.congr {m m' : Mem} {raw size alignment a : Nat}
    (h : AlignedIn m raw size alignment a) (hm : KeepsPayload m m' raw) :
    AlignedIn m' raw size alignment a := by
  obtain ⟨h1, h2, h3, h4⟩ := h
  exact ⟨h1, by rw [hm.1]; exact h2, h3, by rw [hm.2 _ (by omega) (by omega)]; exact h4⟩

theorem alignAddr_bounds (raw : Nat) {alignment : Nat} (hal : 0 < alignment)
    (hb : raw + alignment + 4 < 2 ^ 32) :
    raw + 4 ≤ alignAddr raw alignment ∧ alignAddr raw alignment ≤ raw + alignment + 3 ∧
      alignment ∣ alignAddr raw alignment := by
  have hwrap : wrap32 (raw + (alignment + 4) - 1) = raw + alignment + 3 := by
    unfold wrap32
    omega
  have hlt := Nat.mod_lt (raw + alignment + 3) hal
  simp only [alignAddr, hwrap]
  exact ⟨by omega, by omega, Nat.dvd_sub_mod _⟩

/-- What `kmalloc_aligned` leaves behind. -/
def AllocatedAligned (m : Mem) (live : Finset Nat) (size alignment : Nat) (r : Mem × Nat) :
    Prop :=
  (r.2 = 0 ∧ r.1 = m) ∨ ∃ raw, raw ∉ live ∧ r.2 ≠ 0 ∧ Holds r.1 (insert raw live) ∧
    AlignedIn r.1 raw size alignment r.2 ∧ (∀ q ∈ live, KeepsPayload m r.1 q) ∧
    KeepsOutside m r.1

theorem kmallocAligned_safe {m : Mem} {live : Finset Nat} (h : Holds m live)
    {size alignment : Nat} (hsize : size + alignment < 2 ^ 31) (h4 : 4 ∣ size + alignment)
    (fuel : Nat) :
    Safe (maxBlocks < fuel) (kmallocAligned fuel m size alignment)
      (AllocatedAligned m live size alignment) := by
  rw [kmallocAligned]
  by_cases hbad : badAlignment alignment = true
  · rw [if_pos hbad]
    exact Or.inl ⟨rfl, rfl⟩
  rw [if_neg hbad]
  have hal : 0 < alignment := by
    by_contra h0
    exact hbad (by simp [badAlignment, Nat.eq_zero_of_not_pos h0])
  have hreq : wrap32 (size + wrap32 (alignment + 4)) = size + alignment + 4 := by
    unfold wrap32
    omega
  have hround : roundUp4 (size + alignment + 4) = size + alignment + 4 := if_neg (by omega)
  simp only [hreq]
  refine safe_bind (kmalloc_safe h (size + alignment + 4) fuel) ?_
  rintro ⟨m₁, raw⟩ (⟨hr, hm⟩ | ⟨hr, hfresh, hholds, hroom, hkeep, hout⟩)
  · simp only at hr hm
    subst hr hm
    exact Or.inl ⟨rfl, rfl⟩
  simp only at hr hfresh hholds hroom hkeep hout ⊢
  rw [if_neg hr, hround] at *
  have hmem : raw ∈ insert raw live := Finset.mem_insert_self _ _
  obtain ⟨-, hlo, hhi⟩ := hholds.inside hmem
  have hend : heapEnd = 0x800000 := rfl
  obtain ⟨h1, h2, h3⟩ := alignAddr_bounds raw hal (by omega)
  have hslot : wrap32 (alignAddr raw alignment + 2 ^ 32 - 4) = alignAddr raw alignment - 4 := by
    unfold wrap32
    omega
  rw [hslot]
  obtain ⟨hw, hwkeep, hwsize⟩ := hholds.write raw hmem (a := alignAddr raw alignment - 4)
    (by omega) (by omega)
  refine Or.inr ⟨raw, hfresh, by simp only; omega, hw, ⟨h1, ?_, h3, ?_⟩, fun q hq => ?_,
    hout.trans fun x hx => ?_⟩
  · simp only [hwsize]
    omega
  · exact Function.update_self _ _ _
  · exact (hkeep q hq).trans (hwkeep q (by simp [hq]) fun hqr => hfresh (hqr ▸ hq))
  · exact Function.update_of_ne (by omega) _ _

/-- `kfree_aligned` frees the block behind the hidden pointer. -/
theorem kfreeAligned_safe {m : Mem} {live : Finset Nat} (h : Holds m live)
    {raw size alignment a : Nat} (hraw : raw ∈ live) (ha : AlignedIn m raw size alignment a)
    (fuel : Nat) : Safe (maxBlocks < fuel) (kfreeAligned fuel m a) (Freed m live raw) := by
  obtain ⟨-, hlo, hhi⟩ := h.inside hraw
  obtain ⟨h1, h2, -, h4⟩ := ha
  have hend : heapEnd = 0x800000 := rfl
  have hslot : wrap32 (a + 2 ^ 32 - 4) = a - 4 := by
    unfold wrap32
    omega
  rw [kfreeAligned, if_neg (by omega), hslot, h4]
  exact kfree_safe h hraw (by omega) fuel

/-! ## The block list

The blocks in use determine the block list: between two of them there is at most one free
block, and it fills the gap. -/

theorem tiles_le {a e : Nat} {bs : List Block} (h : Tiles a bs e) : a ≤ e := by
  induction bs generalizing a with
  | nil => exact h.le
  | cons b bs ih =>
      obtain ⟨rfl, hrest⟩ := h
      have hstop : b.stop = b.addr + 8 + b.size := rfl
      have := ih hrest
      omega

theorem tiles_addr_ge {a e : Nat} {bs : List Block} (h : Tiles a bs e) : ∀ b ∈ bs, a ≤ b.addr := by
  induction bs generalizing a with
  | nil => simp
  | cons b bs ih =>
      obtain ⟨rfl, hrest⟩ := h
      have hstop : b.stop = b.addr + 8 + b.size := rfl
      intro c hc
      rcases List.mem_cons.1 hc with rfl | hc
      · exact le_refl _
      · have := ih hrest c hc
        omega

/-- A free block reaches up to the next block in use, or to the end. -/
theorem free_stop_le {a e : Nat} {b c : Block} {bs cs : List Block} (hb : Tiles a (b :: bs) e)
    (hc : Tiles a (c :: cs) e) (hbf : b.free = true) (hcf : c.free = true)
    (hchain : (b :: bs).IsChain fun b c => b.free = true → c.free = false)
    (huse : ∀ d : Block, d.free = false → d ∈ b :: bs → d ∈ c :: cs) : c.stop ≤ b.stop := by
  cases bs with
  | nil =>
      have hend : b.stop = e := hb.2
      have := tiles_le hc.2
      omega
  | cons d bs =>
      have hdf : d.free = false := (List.isChain_cons_cons.1 hchain).1 hbf
      have hd : d.addr = b.stop := hb.2.1
      rcases List.mem_cons.1 (huse d hdf (by simp)) with rfl | hmem
      · rw [hdf] at hcf
        exact absurd hcf (by decide)
      · have := tiles_addr_ge hc.2 d hmem
        omega

theorem tiles_unique {a e : Nat} {bs cs : List Block} (hb : Tiles a bs e) (hc : Tiles a cs e)
    (hbchain : bs.IsChain fun b c => b.free = true → c.free = false)
    (hcchain : cs.IsChain fun b c => b.free = true → c.free = false)
    (huse : ∀ d : Block, d.free = false → (d ∈ bs ↔ d ∈ cs)) : bs = cs := by
  induction bs generalizing a cs with
  | nil =>
      cases cs with
      | nil => rfl
      | cons c cs =>
          have hend : a = e := hb
          have hstop : c.stop = c.addr + 8 + c.size := rfl
          have haddr := hc.1
          have := tiles_le hc.2
          omega
  | cons b bs ih =>
      cases cs with
      | nil =>
          have hend : a = e := hc
          have hstop : b.stop = b.addr + 8 + b.size := rfl
          have haddr := hb.1
          have := tiles_le hb.2
          omega
      | cons c cs =>
          have hbstop : b.stop = b.addr + 8 + b.size := rfl
          have hcstop : c.stop = c.addr + 8 + c.size := rfl
          have hab := hb.1
          have hac := hc.1
          -- the two first blocks are the same
          have hbc : b = c := by
            cases hbf : b.free with
            | false =>
                rcases List.mem_cons.1 ((huse b hbf).1 (by simp)) with heq | hmem
                · exact heq
                · have := tiles_addr_ge hc.2 b hmem
                  omega
            | true =>
                cases hcf : c.free with
                | false =>
                    rcases List.mem_cons.1 ((huse c hcf).2 (by simp)) with heq | hmem
                    · exact heq.symm
                    · have := tiles_addr_ge hb.2 c hmem
                      omega
                | true =>
                    have h₁ := free_stop_le hb hc hbf hcf hbchain fun d hd => (huse d hd).1
                    have h₂ := free_stop_le hc hb hcf hbf hcchain fun d hd => (huse d hd).2
                    cases b
                    cases c
                    simp only [Block.mk.injEq] at *
                    exact ⟨by omega, by omega, by rw [hbf, hcf]⟩
          subst hbc
          rw [ih hb.2 hc.2 hbchain.of_cons hcchain.of_cons]
          intro d hd
          have hne : ∀ {l : List Block}, Tiles b.stop l e → d ∈ l → d ≠ b := by
            intro l hl hmem heq
            have := tiles_addr_ge hl d hmem
            rw [heq] at this
            omega
          constructor
          · intro hmem
            exact (List.mem_cons.1 ((huse d hd).1 (List.mem_cons_of_mem _ hmem))).resolve_left
              (hne hb.2 hmem)
          · intro hmem
            exact (List.mem_cons.1 ((huse d hd).2 (List.mem_cons_of_mem _ hmem))).resolve_left
              (hne hc.2 hmem)

/-- The heap is the same in both memories: the list from `heap_start`, and the payloads of
the blocks in use. -/
def SameHeap (m m' : Mem) : Prop :=
  ∃ bs, BlockList m heapStart bs ∧ BlockList m' heapStart bs ∧
    ∀ b ∈ bs, b.free = false → ∀ x, b.addr + 8 ≤ x → x < b.stop → m' x = m x

/-- **Same pointers, same heap.** -/
theorem Holds.sameHeap {m m' : Mem} {live : Finset Nat} (h : Holds m live) (h' : Holds m' live)
    (hkeep : ∀ q ∈ live, KeepsPayload m m' q) : SameHeap m m' := by
  obtain ⟨bs, hbs⟩ := h
  obtain ⟨cs, hcs⟩ := h'
  have hsub : ∀ {m₁ m₂ : Mem} {bs₁ bs₂ : List Block}, Layout m₁ bs₁ live → Layout m₂ bs₂ live →
      (∀ q ∈ live, payloadSize m₂ q = payloadSize m₁ q) →
      ∀ d : Block, d.free = false → d ∈ bs₁ → d ∈ bs₂ := by
    intro m₁ m₂ bs₁ bs₂ h₁ h₂ hs d hd hmem
    have hlive : d.addr + 8 ∈ live := (h₁.inUse _).2 ⟨d, hmem, hd, rfl⟩
    obtain ⟨c, hc, hcf, haddr⟩ := (h₂.inUse _).1 hlive
    have hsz := hs _ hlive
    rw [h₁.payloadSize_eq hmem, haddr, h₂.payloadSize_eq hc] at hsz
    have hdc : d = c := by
      cases d
      cases c
      simp only [Block.mk.injEq] at *
      exact ⟨by omega, hsz.symm, by rw [hd, hcf]⟩
    rw [hdc]
    exact hc
  have heq : bs = cs := tiles_unique hbs.seg.tiles hcs.seg.tiles hbs.noTwoFree hcs.noTwoFree
    fun d hd => ⟨hsub hbs hcs (fun q hq => (hkeep q hq).1) d hd,
      hsub hcs hbs (fun q hq => (hkeep q hq).1.symm) d hd⟩
  refine ⟨bs, hbs.seg.blockList (le_refl _), heq ▸ hcs.seg.blockList (le_refl _),
    fun b hb hbf x hlo hhi => ?_⟩
  have hlive : b.addr + 8 ∈ live := (hbs.inUse _).2 ⟨b, hb, hbf, rfl⟩
  have hstop : b.stop = b.addr + 8 + b.size := rfl
  exact (hkeep _ hlive).2 x hlo (by rw [hbs.payloadSize_eq hb]; omega)

end BenmoshOS.Heap
