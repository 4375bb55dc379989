import BenmoshOS.Heap.Client

/-!
# The kernel heap: the block list is determined by the live pointers

Because every `kfree` merges the freed block with its free neighbours, the block list of a
heap has a canonical form: it only depends on the live pointers and the sizes of their
payloads.  Two consequences are drawn here.

* `kfree_order` — freeing a set of live pointers in any two orders gives the same block list,
  and freeing all of them gives back the list that `heap_init` made.
* `kmalloc_uses_lowest_gap` — `kmalloc` fails exactly when no gap between the live blocks has
  room for the request, and otherwise takes the gap with the lowest address.
-/

namespace BenmoshOS.Heap

open Exec

/-! ## The list from `heap_start` -/

theorem BlockList.unique {m : Mem} {cur : Nat} {bs cs : List Block} (hb : BlockList m cur bs)
    (hc : BlockList m cur cs) : bs = cs := by
  induction bs generalizing cur cs with
  | nil =>
      cases cs with
      | nil => rfl
      | cons c cs => exact absurd hb hc.1
  | cons b bs ih =>
      cases cs with
      | nil => exact absurd hc hb.1
      | cons c cs =>
          obtain ⟨-, hba, hbs, hbf, hb⟩ := hb
          obtain ⟨-, hca, hcs, hcf, hc⟩ := hc
          have hbc : b = c := by
            cases b
            cases c
            simp only [Block.mk.injEq] at *
            exact ⟨hba.trans hca.symm, hbs.trans hcs.symm, hbf.trans hcf.symm⟩
          rw [hbc, ih hb hc]

theorem Layout.blockList {m : Mem} {bs : List Block} {live : Finset Nat} (h : Layout m bs live) :
    BlockList m heapStart bs :=
  h.seg.blockList (le_refl _)

/-- A heap without live pointers is one free block. -/
theorem Layout.eq_of_empty {m : Mem} {bs : List Block} (h : Layout m bs ∅) :
    bs = [⟨heapStart, heapSize - 8, true⟩] := by
  refine tiles_unique h.seg.tiles (e := heapEnd) ⟨rfl, rfl⟩ h.noTwoFree (by simp) ?_
  intro d hd
  constructor
  · intro hmem
    exact absurd ((h.inUse _).2 ⟨d, hmem, hd, rfl⟩) (by simp)
  · intro hmem
    rw [List.mem_singleton.1 hmem] at hd
    exact absurd hd (by simp)

/-! ## Runs with requests of given sizes -/

/-- The states reached from `heap_init` by requests of the given sizes, releases of live
pointers and writes of the owners. -/
inductive ReachesWith (sizes : Nat → Prop) : Mem → Finset Nat → Prop
  | init (m : Mem) : ReachesWith sizes (heapInit m) ∅
  | kmalloc {m m' : Mem} {live : Finset Nat} {fuel n p : Nat} : ReachesWith sizes m live →
      sizes n → kmalloc fuel m n = .ret (m', p) →
      ReachesWith sizes m' (if p = 0 then live else insert p live)
  | kfree {m m' : Mem} {live : Finset Nat} {fuel p : Nat} : ReachesWith sizes m live →
      p ∈ live → kfree fuel m p = .ret m' → ReachesWith sizes m' (live.erase p)
  | write {m : Mem} {live : Finset Nat} {p a v : Nat} : ReachesWith sizes m live →
      p ∈ live → p ≤ a → a + 4 ≤ p + payloadSize m p → ReachesWith sizes (store m a v) live

/-- A request that `kmalloc` does not round to zero. -/
def Proper (n : Nat) : Prop := 1 ≤ n ∧ n ≤ 0xFFFFFFFC

theorem roundUp4_of_le {n : Nat} (h : n ≤ 0xFFFFFFFC) : n ≤ roundUp4 n ∧ roundUp4 n ≤ n + 3 := by
  unfold roundUp4 wrap32
  split
  · omega
  · omega

theorem ReachesWith.reaches {sizes : Nat → Prop} (hsizes : ∀ n, sizes n → n < 2 ^ 32) {m : Mem}
    {live : Finset Nat} (h : ReachesWith sizes m live) : Reaches m live := by
  induction h with
  | init m => exact .init m
  | kmalloc _ hn hret ih => exact .kmalloc ih (hsizes _ hn) hret
  | kfree _ hp hret ih => exact .kfree ih hp hret
  | write _ hp h₁ h₂ ih => exact .write ih hp h₁ h₂

theorem Reaches.holds {m : Mem} {live : Finset Nat} (h : Reaches m live) : Holds m live := h.layout

/-- A returning `kmalloc` on any fuel. -/
theorem Holds.kmalloc_cases {m m' : Mem} {live : Finset Nat} (h : Holds m live) {n p fuel : Nat}
    (hret : kmalloc fuel m n = .ret (m', p)) : Allocated m live n (m', p) :=
  (kmalloc_safe h n fuel).of_ret hret

/-- A `kfree` that returns has freed a block with a payload. -/
theorem Holds.kfree_cases {m m' : Mem} {live : Finset Nat} (h : Holds m live) {p fuel : Nat}
    (hp : p ∈ live) (hret : kfree fuel m p = .ret m') :
    payloadSize m p ≠ 0 ∧ Freed m live p m' := by
  have hsize : payloadSize m p ≠ 0 := by
    obtain ⟨bs, hbs⟩ := h
    have hret' := kfree_mono hret (Nat.le_max_left fuel bs.length)
    obtain ⟨pre, b, post, rfl, -, rfl, ⟨-, hpanic⟩ | ⟨hsize, -⟩⟩ :=
      kfree_spec hbs hp (Nat.le_max_right fuel bs.length)
    · rw [hret'] at hpanic
      exact absurd hpanic (by simp)
    · rwa [hbs.payloadSize_eq (by simp)]
  exact ⟨hsize, (kfree_safe h hp hsize fuel).of_ret hret⟩

/-- **Proper requests get a payload.**  No live pointer of a run without improper requests has
an empty block. -/
theorem ReachesWith.payloadSize_ne_zero {m : Mem} {live : Finset Nat}
    (h : ReachesWith Proper m live) : ∀ p ∈ live, payloadSize m p ≠ 0 := by
  induction h with
  | init m => simp
  | @kmalloc m m' live fuel n p hreach hn hret ih =>
      have hholds := (hreach.reaches fun n hn => lt_of_le_of_lt hn.2 (by norm_num)).holds
      rcases hholds.kmalloc_cases hret with ⟨hp, hm⟩ | ⟨hp, hfresh, -, hroom, hkeep, -⟩
      · simp only at hp hm
        rw [if_pos hp, hm]
        exact ih
      · simp only at hp hfresh hroom hkeep
        rw [if_neg hp]
        intro q hq
        rcases Finset.mem_insert.1 hq with rfl | hq
        · have := roundUp4_of_le hn.2
          have := hn.1
          omega
        · rw [(hkeep q hq).1]
          exact ih q hq
  | @kfree m m' live fuel p hreach hp hret ih =>
      have hholds := (hreach.reaches fun n hn => lt_of_le_of_lt hn.2 (by norm_num)).holds
      obtain ⟨-, -, hkeep, -⟩ := hholds.kfree_cases hp hret
      intro q hq
      obtain ⟨hne, hq⟩ := Finset.mem_erase.1 hq
      rw [(hkeep q hq hne).1]
      exact ih q hq
  | @write m live p a v hreach hp h₁ h₂ ih =>
      have hholds := (hreach.reaches fun n hn => lt_of_le_of_lt hn.2 (by norm_num)).holds
      obtain ⟨-, hkeep, hself⟩ := hholds.write v hp h₁ (by omega)
      intro q hq
      by_cases hqp : q = p
      · rw [hqp, hself]
        exact ih p hp
      · rw [(hkeep q hq hqp).1]
        exact ih q hq

/-! ## The order of releases -/

/-- `kfree` of the pointers of a list, one after the other. -/
def freeAll (fuel : Nat) (m : Mem) (ps : List Nat) : Exec Mem := ps.foldlM (kfree fuel) m

/-- What is left after a list of live pointers has been freed. -/
theorem freeAll_spec {fuel : Nat} (hfuel : maxBlocks < fuel) {ps : List Nat} : ∀ {m : Mem}
    {live : Finset Nat}, Holds m live → (∀ p ∈ live, payloadSize m p ≠ 0) → ps.Nodup →
    (∀ p ∈ ps, p ∈ live) →
    ∃ m', freeAll fuel m ps = .ret m' ∧ Holds m' (live \ ps.toFinset) ∧
      ∀ q ∈ live \ ps.toFinset, KeepsPayload m m' q := by
  induction ps with
  | nil =>
      intro m live h _ _ _
      exact ⟨m, rfl, by simpa using h, fun q _ => KeepsPayload.refl m q⟩
  | cons p ps ih =>
      intro m live h hsize hnodup hlive
      obtain ⟨hnotin, hnodup⟩ := List.nodup_cons.1 hnodup
      have hp := hlive p (by simp)
      obtain ⟨m₁, hret, hholds, hkeep, -⟩ := (kfree_safe h hp (hsize p hp) fuel).returns hfuel
      have hrest : ∀ q ∈ ps, q ∈ live.erase p := fun q hq =>
        Finset.mem_erase.2 ⟨fun heq => hnotin (heq ▸ hq), hlive q (by simp [hq])⟩
      have hsize₁ : ∀ q ∈ live.erase p, payloadSize m₁ q ≠ 0 := by
        intro q hq
        obtain ⟨hne, hq⟩ := Finset.mem_erase.1 hq
        rw [(hkeep q hq hne).1]
        exact hsize q hq
      obtain ⟨m', hret', hholds', hkeep'⟩ := ih hholds hsize₁ hnodup hrest
      have hset : live.erase p \ ps.toFinset = live \ (p :: ps).toFinset := by
        rw [List.toFinset_cons, Finset.erase_sdiff_comm, Finset.sdiff_insert]
      rw [hset] at hholds' hkeep'
      refine ⟨m', ?_, hholds', fun q hq => ?_⟩
      · show (kfree fuel m p >>= fun m => freeAll fuel m ps) = .ret m'
        rw [hret]
        exact hret'
      · obtain ⟨hq', hnot⟩ := Finset.mem_sdiff.1 hq
        have hne : q ≠ p := fun heq => hnot (by simp [heq])
        exact (hkeep q hq' hne).trans (hkeep' q hq)

theorem KeepsPayload.symm {m m' : Mem} {q : Nat} (h : KeepsPayload m m' q) : KeepsPayload m' m q :=
  ⟨h.1.symm, fun x hx hxs => (h.2 x hx (by rw [← h.1]; exact hxs)).symm⟩

/-- **The order of releases does not matter.** -/
theorem kfree_order {m : Mem} {live : Finset Nat} (h : ReachesWith Proper m live) {S : Finset Nat}
    (hS : S ⊆ live) {ps qs : List Nat} (hps : ps.Perm S.toList) (hqs : qs.Perm S.toList)
    {fuel : Nat} (hfuel : maxBlocks < fuel) :
    ∃ m₁ m₂ bs, freeAll fuel m ps = .ret m₁ ∧ freeAll fuel m qs = .ret m₂ ∧
      BlockList m₁ heapStart bs ∧ BlockList m₂ heapStart bs ∧
      (S = live → bs = [⟨heapStart, heapSize - 8, true⟩]) := by
  have hholds := (h.reaches fun n hn => lt_of_le_of_lt hn.2 (by norm_num)).holds
  have hfree : ∀ {rs : List Nat}, rs.Perm S.toList → ∃ m', freeAll fuel m rs = .ret m' ∧
      Holds m' (live \ S) ∧ ∀ q ∈ live \ S, KeepsPayload m m' q := by
    intro rs hrs
    have hset : rs.toFinset = S := by
      rw [List.toFinset_eq_of_perm _ _ hrs, Finset.toList_toFinset]
    have hspec := freeAll_spec hfuel hholds h.payloadSize_ne_zero
      (hrs.nodup_iff.2 S.nodup_toList) fun p hp => hS (Finset.mem_toList.1 (hrs.mem_iff.1 hp))
    rwa [hset] at hspec
  obtain ⟨m₁, hret₁, hholds₁, hkeep₁⟩ := hfree hps
  obtain ⟨m₂, hret₂, hholds₂, hkeep₂⟩ := hfree hqs
  obtain ⟨bs, hbs₁, hbs₂, -⟩ := hholds₁.sameHeap hholds₂ fun q hq =>
    (hkeep₁ q hq).symm.trans (hkeep₂ q hq)
  refine ⟨m₁, m₂, bs, hret₁, hret₂, hbs₁, hbs₂, ?_⟩
  rintro rfl
  rw [Finset.sdiff_self] at hholds₁
  obtain ⟨cs, hcs⟩ := hholds₁
  rw [hbs₁.unique hcs.blockList]
  exact hcs.eq_of_empty

/-- The memory after two requests of 16 bytes. -/
def twoBlocks : Mem := takeBlock (takeBlock (heapInit fun _ => 0) 0x400000 16) 0x400018 16

theorem reachesWith_twoBlocks :
    ReachesWith Proper twoBlocks (insert 0x400020 (insert 0x400008 ∅)) := by
  have hfirst : kmalloc 1 (heapInit fun _ => 0) 16 =
      .ret (takeBlock (heapInit fun _ => 0) 0x400000 16, 0x400008) := rfl
  have hsecond : kmalloc 2 (takeBlock (heapInit fun _ => 0) 0x400000 16) 16 =
      .ret (twoBlocks, 0x400020) := rfl
  have hproper : Proper 16 := ⟨by norm_num, by norm_num⟩
  exact .kmalloc (.kmalloc (.init _) hproper hfirst) hproper hsecond

/-- Two blocks, freed in either order. -/
theorem kfree_order_twoBlocks :
    ∃ m₁ m₂ bs, freeAll (maxBlocks + 1) twoBlocks [0x400008, 0x400020] = .ret m₁ ∧
      freeAll (maxBlocks + 1) twoBlocks [0x400020, 0x400008] = .ret m₂ ∧
      BlockList m₁ heapStart bs ∧ BlockList m₂ heapStart bs ∧
      bs = [⟨heapStart, heapSize - 8, true⟩] := by
  have hset : insert 0x400020 (insert 0x400008 ∅) = [0x400020, 0x400008].toFinset := by simp
  have hperm := (List.toFinset_toList (show [0x400020, 0x400008].Nodup by decide)).symm
  obtain ⟨m₁, m₂, bs, h₁, h₂, hbs₁, hbs₂, hall⟩ := kfree_order reachesWith_twoBlocks
    (S := [0x400020, 0x400008].toFinset) (by rw [hset]) ((List.Perm.swap _ _ _).trans hperm) hperm
    (Nat.lt_succ_self maxBlocks)
  exact ⟨m₁, m₂, bs, h₁, h₂, hbs₁, hbs₂, hall hset.symm⟩

/-! ## Gaps between the live blocks -/

/-- The address `x` belongs to the block of a live pointer, its header included. -/
def Covered (m : Mem) (live : Finset Nat) (x : Nat) : Prop :=
  ∃ p ∈ live, p - 8 ≤ x ∧ x < p + payloadSize m p

/-- `[a, e)` is a maximal stretch of the heap without an address of a live block. -/
structure Gap (m : Mem) (live : Finset Nat) (a e : Nat) : Prop where
  start_le : heapStart ≤ a
  lt : a < e
  le_end : e ≤ heapEnd
  uncovered : ∀ x, a ≤ x → x < e → ¬ Covered m live x
  left : a = heapStart ∨ Covered m live (a - 1)
  right : e = heapEnd ∨ Covered m live e

theorem Layout.covered_iff {m : Mem} {bs : List Block} {live : Finset Nat} (h : Layout m bs live)
    {x : Nat} : Covered m live x ↔ ∃ b ∈ bs, b.free = false ∧ b.addr ≤ x ∧ x < b.stop := by
  constructor
  · rintro ⟨p, hp, hlo, hhi⟩
    obtain ⟨b, hb, hbf, rfl⟩ := (h.inUse p).1 hp
    rw [h.payloadSize_eq hb] at hhi
    exact ⟨b, hb, hbf, by omega, hhi⟩
  · rintro ⟨b, hb, hbf, hlo, hhi⟩
    refine ⟨b.addr + 8, (h.inUse _).2 ⟨b, hb, hbf, rfl⟩, by omega, ?_⟩
    rw [h.payloadSize_eq hb]
    exact hhi

/-- Every address of the heap is in a block of the layout. -/
theorem tiles_cover {a e : Nat} {bs : List Block} (h : Tiles a bs e) {x : Nat} (ha : a ≤ x)
    (he : x < e) : ∃ b ∈ bs, b.addr ≤ x ∧ x < b.stop := by
  induction bs generalizing a with
  | nil =>
      have hend : a = e := h
      omega
  | cons b bs ih =>
      obtain ⟨rfl, hrest⟩ := h
      by_cases hx : x < b.stop
      · exact ⟨b, by simp, ha, hx⟩
      · obtain ⟨c, hc, hcx⟩ := ih hrest (by omega)
        exact ⟨c, by simp [hc], hcx⟩

/-- Blocks of a layout that share an address are the same. -/
theorem Layout.eq_of_overlap {m : Mem} {bs : List Block} {live : Finset Nat} (h : Layout m bs live)
    {b c : Block} (hb : b ∈ bs) (hc : c ∈ bs) {x : Nat} (hbx : b.addr ≤ x ∧ x < b.stop)
    (hcx : c.addr ≤ x ∧ x < c.stop) : b = c := by
  obtain ⟨pre, post, rfl⟩ := List.append_of_mem hb
  have hpw := seg_pairwise h.seg
  rw [List.pairwise_append, List.pairwise_cons] at hpw
  rcases List.mem_append.1 hc with hc | hc
  · have := hpw.2.2 c hc b (by simp)
    omega
  · rcases List.mem_cons.1 hc with rfl | hc
    · rfl
    · have := hpw.2.1.1 c hc
      omega

/-- The block in front of a free block ends where it begins, and is in use. -/
theorem Layout.before_free {m : Mem} {pre post : List Block} {b : Block} {live : Finset Nat}
    (h : Layout m (pre ++ b :: post) live) (hbf : b.free = true) :
    b.addr = heapStart ∨ ∃ c ∈ pre, c.free = false ∧ c.stop = b.addr := by
  obtain ⟨hpre, -⟩ := seg_split.1 h.seg
  rcases List.eq_nil_or_concat pre with rfl | ⟨init, c, rfl⟩
  · exact Or.inl hpre.symm
  · refine Or.inr ⟨c, by simp, ?_, ?_⟩
    · have hchain := h.noTwoFree
      rw [List.concat_eq_append, List.append_assoc, List.singleton_append, List.isChain_append] at hchain
      have hcb := (List.isChain_cons_cons.1 hchain.2.1).1
      by_contra hcf
      exact absurd (hbf.symm.trans (hcb (by simpa using hcf))) (by simp)
    · rw [List.concat_eq_append] at hpre
      obtain ⟨-, -, -, -, hend⟩ := seg_split.1 hpre
      exact hend

/-- The block behind a free block begins where it ends, and is in use. -/
theorem Layout.behind_free {m : Mem} {pre post : List Block} {b : Block} {live : Finset Nat}
    (h : Layout m (pre ++ b :: post) live) (hbf : b.free = true) :
    b.stop = heapEnd ∨ ∃ c ∈ post, c.free = false ∧ c.addr = b.stop := by
  obtain ⟨-, -, -, -, hpost⟩ := seg_split.1 h.seg
  cases post with
  | nil => exact Or.inl hpost
  | cons c post =>
      have hchain := h.noTwoFree
      rw [List.isChain_append] at hchain
      exact Or.inr ⟨c, by simp, (List.isChain_cons_cons.1 hchain.2.1).1 hbf, hpost.1⟩

/-- **The gaps are the free blocks.** -/
theorem Layout.gap_iff {m : Mem} {bs : List Block} {live : Finset Nat} (h : Layout m bs live)
    {a e : Nat} : Gap m live a e ↔ ∃ b ∈ bs, b.free = true ∧ b.addr = a ∧ b.stop = e := by
  have hfree : ∀ {b : Block}, b ∈ bs → b.free = true → ∀ x, b.addr ≤ x → x < b.stop →
      ¬ Covered m live x := by
    intro b hb hbf x hlo hhi hcov
    obtain ⟨c, hc, hcf, hcx⟩ := h.covered_iff.1 hcov
    rw [h.eq_of_overlap hb hc ⟨hlo, hhi⟩ hcx, hcf] at hbf
    exact absurd hbf (by simp)
  have hgap : ∀ {b : Block}, b ∈ bs → b.free = true → Gap m live b.addr b.stop := by
    intro b hb hbf
    obtain ⟨hlo, hhi, -, -⟩ := h.block b hb
    have hstop : b.stop = b.addr + 8 + b.size := rfl
    obtain ⟨pre, post, hsplit⟩ := List.append_of_mem hb
    have h' := h
    rw [hsplit] at h'
    refine ⟨hlo, by omega, hhi, hfree hb hbf, ?_, ?_⟩
    · rcases h'.before_free hbf with hstart | ⟨c, hc, hcf, hcs⟩
      · exact Or.inl hstart
      · have hcstop : c.stop = c.addr + 8 + c.size := rfl
        exact Or.inr (h.covered_iff.2 ⟨c, by simp [hsplit, hc], hcf, by omega, by omega⟩)
    · rcases h'.behind_free hbf with hend | ⟨c, hc, hcf, hca⟩
      · exact Or.inl hend
      · have hcstop : c.stop = c.addr + 8 + c.size := rfl
        exact Or.inr (h.covered_iff.2 ⟨c, by simp [hsplit, hc], hcf, by omega, by omega⟩)
  constructor
  · intro hg
    -- the block at the start of the gap is free, and both stretches are maximal
    obtain ⟨b, hb, hba, hbe⟩ := tiles_cover h.seg.tiles hg.start_le (hg.lt.trans_le hg.le_end)
    have hbf : b.free = true := by
      by_contra hbf
      refine hg.uncovered a (le_refl a) hg.lt (h.covered_iff.2 ⟨b, hb, by simpa using hbf, hba, hbe⟩)
    have hg' := hgap hb hbf
    refine ⟨b, hb, hbf, ?_, ?_⟩
    · rcases hg.left with hstart | hcov
      · have := hg'.start_le
        omega
      · by_contra hne
        exact hfree hb hbf (a - 1) (by omega) (by omega) hcov
    · rcases Nat.lt_trichotomy b.stop e with hlt | heq | hgt
      · rcases hg'.right with hend | hcov
        · have := hg.le_end
          omega
        · exact absurd hcov (hg.uncovered b.stop (by omega) hlt)
      · exact heq
      · rcases hg.right with hend | hcov
        · have := hg'.le_end
          omega
        · exact absurd hcov (hfree hb hbf e (by have := hg.lt; omega) hgt)
  · rintro ⟨b, hb, hbf, rfl, rfl⟩
    exact hgap hb hbf

/-- The bytes a request takes: the header and the payload rounded up to four. -/
def footprint (n : Nat) : Nat := 8 + (n + 3) / 4 * 4

theorem footprint_eq {n : Nat} (h : n ≤ 0xFFFFFFFC) : footprint n = 8 + roundUp4 n := by
  unfold footprint roundUp4 wrap32
  split
  · omega
  · omega

/-- **`kmalloc` fails only when there is no room.**  It returns `NULL` exactly when every gap
between the live blocks is too short for the request, and then nothing has changed; otherwise
it takes the lowest gap that is long enough. -/
theorem kmalloc_uses_lowest_gap {m : Mem} {live : Finset Nat} (h : Reaches m live) {n : Nat}
    (hle : n ≤ 0xFFFFFFFC) {fuel : Nat} (hfuel : maxBlocks < fuel) :
    ∃ m' p, kmalloc fuel m n = .ret (m', p) ∧
      (p = 0 ↔ ∀ a e, Gap m live a e → e - a < footprint n) ∧
      (p = 0 → m' = m) ∧
      (p ≠ 0 → ∃ a e, Gap m live a e ∧ footprint n ≤ e - a ∧ p = a + 8 ∧
        ∀ a' e', Gap m live a' e' → footprint n ≤ e' - a' → a ≤ a') := by
  obtain ⟨bs, hbs⟩ := h.layout
  have hlen := hbs.length_le
  have hfoot := footprint_eq hle
  have hsize : ∀ b : Block, b.stop - b.addr = 8 + b.size := fun b => by
    have hstop : b.stop = b.addr + 8 + b.size := rfl
    omega
  rcases kmalloc_spec hbs n (by omega : bs.length < fuel) with ⟨hret, hsmall⟩ |
    ⟨pre, b, post, rfl, hbf, hfit, hpre, hret, -⟩
  · refine ⟨m, 0, hret, iff_of_true rfl ?_, fun _ => rfl, fun hp => absurd rfl hp⟩
    intro a e hg
    obtain ⟨b, hb, hbf, rfl, rfl⟩ := hbs.gap_iff.1 hg
    have := hsmall b hb hbf
    rw [hsize b]
    omega
  · have hb : b ∈ pre ++ b :: post := by simp
    have hgap : Gap m live b.addr b.stop := hbs.gap_iff.2 ⟨b, hb, hbf, rfl, rfl⟩
    refine ⟨_, b.addr + 8, hret, iff_of_false (by omega) fun hall => ?_, fun hp => by omega, fun _ => ?_⟩
    · have := hall _ _ hgap
      rw [hsize b] at this
      omega
    · refine ⟨b.addr, b.stop, hgap, by rw [hsize b]; omega, rfl, ?_⟩
      intro a' e' hg' hroom
      obtain ⟨c, hc, hcf, rfl, rfl⟩ := hbs.gap_iff.1 hg'
      rw [hsize c] at hroom
      have hpw := seg_pairwise hbs.seg
      rw [List.pairwise_append, List.pairwise_cons] at hpw
      have hbstop : b.stop = b.addr + 8 + b.size := rfl
      rcases List.mem_append.1 hc with hc | hc
      · have := hpre c hc hcf
        omega
      · rcases List.mem_cons.1 hc with rfl | hc
        · exact le_refl _
        · have := hpw.2.1.1 c hc
          omega

/-- The memory after two requests of 16 bytes and the release of the first: a hole of 24 bytes in
front of the live block. -/
def holed : Mem := store twoBlocks 0x400000 (markFree (twoBlocks 0x400000))

theorem reaches_holed : Reaches holed {0x400020} := by
  have htwo := reachesWith_twoBlocks.reaches fun n hn => lt_of_le_of_lt hn.2 (by norm_num)
  have hfree : kfree 3 twoBlocks 0x400008 = .ret holed := rfl
  have hlive : (insert 0x400020 (insert 0x400008 ∅) : Finset Nat).erase 0x400008 = {0x400020} := by
    decide
  exact hlive ▸ htwo.kfree (by decide) hfree

theorem covered_holed {x : Nat} :
    Covered holed {0x400020} x ↔ 0x400018 ≤ x ∧ x < 0x400030 := by
  have hsize : payloadSize holed 0x400020 = 16 := rfl
  simp only [Covered, Finset.mem_singleton, exists_eq_left, hsize]

theorem gaps_holed : Gap holed {0x400020} 0x400000 0x400018 ∧
    Gap holed {0x400020} 0x400030 0x800000 := by
  constructor
  · exact ⟨le_rfl, by decide, by decide, fun x _ hx hc => by have := covered_holed.1 hc; omega,
      Or.inl rfl, Or.inr (covered_holed.2 (by decide))⟩
  · exact ⟨by decide, by decide, le_rfl, fun x hx _ hc => by have := covered_holed.1 hc; omega,
      Or.inr (covered_holed.2 (by decide)), Or.inl rfl⟩

/-- On that heap a request that fits goes into the hole, a longer one behind the live block, and
one of the size of the heap fails. -/
theorem kmalloc_uses_lowest_gap_holed :
    (∃ m', kmalloc (maxBlocks + 1) holed 16 = .ret (m', 0x400008)) ∧
      (∃ m', kmalloc (maxBlocks + 1) holed 32 = .ret (m', 0x400038)) ∧
      kmalloc (maxBlocks + 1) holed heapSize = .ret (holed, 0) := by
  obtain ⟨hlow, hhigh⟩ := gaps_holed
  have hfuel := Nat.lt_succ_self maxBlocks
  refine ⟨?_, ?_, ?_⟩
  · obtain ⟨m', p, hret, hnull, -, hgap⟩ :=
      kmalloc_uses_lowest_gap reaches_holed (n := 16) (by decide) hfuel
    obtain ⟨a, e, hg, -, hp, hlowest⟩ :=
      hgap fun hz => absurd (hnull.1 hz _ _ hlow) (by decide)
    have hle := hlowest _ _ hlow (by decide)
    have hstart : 0x400000 ≤ a := hg.start_le
    exact ⟨m', by rw [hret, hp, Nat.le_antisymm hle hstart]⟩
  · obtain ⟨m', p, hret, hnull, -, hgap⟩ :=
      kmalloc_uses_lowest_gap reaches_holed (n := 32) (by decide) hfuel
    obtain ⟨a, e, hg, hroom, hp, hlowest⟩ :=
      hgap fun hz => absurd (hnull.1 hz _ _ hhigh) (by decide)
    have hle := hlowest _ _ hhigh (by decide)
    have hroom' : 40 ≤ e - a := hroom
    have hstart : 0x400000 ≤ a := hg.start_le
    -- a gap that begins before the live block ends at it
    have hge : 0x400030 ≤ a := by
      by_contra hlt
      by_cases hin : 0x400018 ≤ a
      · exact hg.uncovered a le_rfl hg.lt (covered_holed.2 ⟨hin, Nat.lt_of_not_le hlt⟩)
      · exact hg.uncovered 0x400018 (by omega) (by omega) (covered_holed.2 (by decide))
    exact ⟨m', by rw [hret, hp, Nat.le_antisymm hle hge]⟩
  · obtain ⟨m', p, hret, hnull, hsame, -⟩ :=
      kmalloc_uses_lowest_gap reaches_holed (n := heapSize) (by decide) hfuel
    have hz : p = 0 := hnull.2 fun a e hg => by
      have h₁ : 0x400000 ≤ a := hg.start_le
      have h₂ : e ≤ 0x800000 := hg.le_end
      have hfoot : footprint heapSize = 0x400008 := rfl
      omega
    rw [hret, hsame hz, hz]

end BenmoshOS.Heap
