import BenmoshOS.Heap.Requests
import BenmoshOS.Heap.DoubleFree
import Mathlib.Data.List.TakeWhile

/-!
# The kernel heap as `heapdump` sees it

The shell command `heapdump` does not follow the list of the allocator: it goes from
`heap_start` on by the sizes in the headers, to the end of the heap or to a block of size 0.
Since the blocks tile the heap it meets the blocks of the list in their order, up to the first
one of size 0 (`heapdump_eq`), and those are the blocks of requests of 0 bytes.
-/

namespace BenmoshOS.Heap

open Exec

/-- One round of the loop of `heapdump`: the address of the block and the lines printed so
far, a line for each block. -/
def heapdumpBody (m : Mem) : Nat × List Block → Exec ((Nat × List Block) ⊕ List Block)
  | (block, lines) =>
      if block < 0x800000 then
        let hdr := m block
        let size := sizeOf hdr
        let free := isFree hdr
        if size = 0 then .ret (.inr lines)
        else .ret (.inl (wrap32 (block + size + 8), lines ++ [⟨block, size, free⟩]))
      else .ret (.inr lines)

/-- The `heapdump` branch of `execute_command`: the lines it prints, the `i`-th one numbered
`i`. -/
def heapdump (fuel : Nat) (m : Mem) : Exec (List Block) :=
  Exec.loop (heapdumpBody m) fuel (heapStart, [])

/-- The blocks in front of the first one of size 0. -/
def beforeEmpty (bs : List Block) : List Block := bs.takeWhile fun b => b.size ≠ 0

/-- The walk over a stretch of blocks up to the end of the heap. -/
theorem loop_heapdumpBody {m : Mem} {a fuel : Nat} {bs lines : List Block}
    (h : Seg m a bs heapEnd) (hfuel : bs.length < fuel) :
    Exec.loop (heapdumpBody m) fuel (a, lines) = .ret (lines ++ beforeEmpty bs) := by
  induction bs generalizing a fuel lines with
  | nil =>
      obtain ⟨fuel, rfl⟩ := Nat.exists_eq_add_one_of_ne_zero (Nat.ne_zero_of_lt hfuel)
      have hend : ¬ a < 0x800000 := by
        rw [show a = heapEnd from h]
        decide
      have hbody : heapdumpBody m (a, lines) = .ret (.inr lines) := if_neg hend
      rw [loop_leave hbody]
      simp [beforeEmpty]
  | cons b bs ih =>
      obtain ⟨fuel, rfl⟩ := Nat.exists_eq_add_one_of_ne_zero (Nat.ne_zero_of_lt hfuel)
      obtain ⟨rfl, h4, hword, -, hrest⟩ := h
      have hle := seg_length_le hrest
      have hstop : b.stop = b.addr + 8 + b.size := rfl
      have hinside : b.addr < 0x800000 := by
        unfold heapEnd at hle
        omega
      have hbody : heapdumpBody m (b.addr, lines) =
          if b.size = 0 then .ret (.inr lines) else .ret (.inl (b.stop, lines ++ [b])) := by
        have hwrap : wrap32 (b.addr + b.size + 8) = b.stop := by
          rw [wrap32, Nat.mod_eq_of_lt]
          · omega
          · unfold heapEnd at hle
            omega
        simp only [heapdumpBody, hinside, if_true, hword, sizeOf_word h4, isFree_word h4, hwrap]
      by_cases hsize : b.size = 0
      · rw [if_pos hsize] at hbody
        have hnone : beforeEmpty (b :: bs) = [] := List.takeWhile_cons_of_neg (by simp [hsize])
        rw [loop_leave hbody, hnone, List.append_nil]
      · rw [if_neg hsize] at hbody
        have hcons : beforeEmpty (b :: bs) = b :: beforeEmpty bs :=
          List.takeWhile_cons_of_pos (by simp [hsize])
        rw [loop_again hbody, ih hrest (Nat.lt_of_succ_lt_succ hfuel), hcons,
          List.append_assoc, List.singleton_append]

/-- `heapdump` prints the blocks of the layout up to the first empty one. -/
theorem Layout.heapdump_eq {m : Mem} {bs : List Block} {live : Finset Nat} (h : Layout m bs live)
    {fuel : Nat} (hfuel : maxBlocks < fuel) : heapdump fuel m = .ret (beforeEmpty bs) :=
  loop_heapdumpBody h.seg (h.length_le.trans_lt hfuel)

/-- In a run the empty blocks are those of live pointers. -/
theorem Layout.sizes_ne_zero_iff {m : Mem} {bs : List Block} {live : Finset Nat}
    (h : Layout m bs live) (hfree : FreeNonempty bs) :
    (∀ b ∈ bs, b.size ≠ 0) ↔ ∀ p ∈ live, payloadSize m p ≠ 0 := by
  constructor
  · intro hsizes p hp
    obtain ⟨b, hb, -, rfl⟩ := (h.inUse p).1 hp
    rw [h.payloadSize_eq hb]
    exact hsizes b hb
  · intro hlive b hb
    cases hf : b.free with
    | true => exact hfree b hb hf
    | false =>
        have hsize := hlive (b.addr + 8) ((h.inUse _).2 ⟨b, hb, hf, rfl⟩)
        rwa [h.payloadSize_eq hb] at hsize

/-- **`heapdump` sees the whole heap when no live block is empty.**  In every state reached
from `heap_init` the walk of `heapdump` ends, and it visits exactly the blocks of the list
that `kmalloc` and `kfree` walk, in the same order, if and only if no live pointer has a
payload of 0 bytes. -/
theorem heapdump_sees_list_iff {m : Mem} {live : Finset Nat} (h : Reaches m live) :
    (∃ bs, BlockList m heapStart bs ∧ ∀ fuel > maxBlocks, heapdump fuel m = .ret bs) ↔
      ∀ p ∈ live, payloadSize m p ≠ 0 := by
  obtain ⟨bs, hbs, hfree⟩ := h.freeNonempty
  rw [← hbs.sizes_ne_zero_iff hfree]
  constructor
  · rintro ⟨cs, hcs, hdump⟩
    obtain rfl := hbs.blockList.unique hcs
    have hall := hdump (maxBlocks + 1) (Nat.lt_succ_self _)
    rw [hbs.heapdump_eq (Nat.lt_succ_self _)] at hall
    have heq : beforeEmpty bs = bs := ret.inj hall
    intro b hb
    simpa using List.takeWhile_eq_self_iff.1 heq b hb
  · intro hsizes
    refine ⟨bs, hbs.blockList, fun fuel hfuel => ?_⟩
    rw [hbs.heapdump_eq hfuel]
    exact congrArg ret (List.takeWhile_eq_self_iff.2 fun b hb => by simpa using hsizes b hb)

/-- One block of 16 bytes. -/
theorem heapdump_sees_list_iff_block :
    (∃ bs, BlockList oneBlock heapStart bs ∧
        ∀ fuel > maxBlocks, heapdump fuel oneBlock = .ret bs) ↔
      ∀ p ∈ (if 0x400008 = 0 then ∅ else insert 0x400008 ∅ : Finset Nat),
        payloadSize oneBlock p ≠ 0 :=
  heapdump_sees_list_iff (Reaches.kmalloc (Reaches.init _) (by norm_num) kmalloc_oneBlock)

/-- The heap after `kmalloc(0)`. -/
def emptyBlock : Mem := takeBlock (heapInit fun _ => 0) 0x400000 0

/-- After `kmalloc(0)` on a new heap the list has two blocks, and `heapdump` prints none. -/
theorem heapdump_stops_at_empty_block :
    Reaches emptyBlock (if 0x400008 = 0 then ∅ else insert 0x400008 ∅) ∧
      BlockList emptyBlock heapStart [⟨0x400000, 0, false⟩, ⟨0x400008, 0x3FFFF0, true⟩] ∧
      heapdump 1 emptyBlock = .ret [] ∧
      ¬ ∃ bs, BlockList emptyBlock heapStart bs ∧
        ∀ fuel > maxBlocks, heapdump fuel emptyBlock = .ret bs := by
  have hkmalloc : kmalloc 1 (heapInit fun _ => 0) 0 = .ret (emptyBlock, 0x400008) := rfl
  have hlist : BlockList emptyBlock heapStart
      [⟨0x400000, 0, false⟩, ⟨0x400008, 0x3FFFF0, true⟩] :=
    ⟨by decide, rfl, rfl, rfl, by decide, rfl, rfl, rfl, rfl⟩
  have hdump : heapdump 1 emptyBlock = .ret [] := rfl
  refine ⟨Reaches.kmalloc (Reaches.init _) (by norm_num) hkmalloc, hlist, hdump, ?_⟩
  rintro ⟨bs, hbs, hall⟩
  have hnone := loop_mono hdump (Nat.le_add_left 1 maxBlocks)
  have hsome := hall (maxBlocks + 1) (Nat.lt_succ_self _)
  have hempty : bs = [] := ret.inj (hsome.symm.trans hnone)
  rw [hempty] at hbs
  exact absurd (hbs.unique hlist) (by simp)

end BenmoshOS.Heap
