import BenmoshOS.Pmm.Frames

/-!
# The physical memory manager: the summary bitmap

`summary_bitmap` has one bit for each word of `bitmap`.  `Summarised s` says that
the bit is set exactly when the word is full.  The two mark helpers are the only
code that writes either bitmap, so it is enough that they keep it; the loops of
`pmm_init`, `pmm_reserve_block` and `pmm_free_block` then keep it round by round.
-/

namespace BenmoshOS.Pmm

/-- Every word of the bitmap is full exactly when its summary bit is set. -/
def Summarised (s : State) : Prop :=
  ∀ w < 32768,
    (s.summaryBitmap (w / 32)).getLsbD (w % 32) = true ↔ s.bitmap w = 0xFFFFFFFF#32

/-! ## Words -/

theorem mod_lt_word (n : Nat) : n % 32 < 32 := Nat.mod_lt n (by norm_num)

theorem full_or (v : BitVec 32) : 0xFFFFFFFF#32 ||| v = 0xFFFFFFFF#32 :=
  BitVec.allOnes_or

/-- A word with a clear bit is not full. -/
theorem ne_full_of_getLsbD {v : BitVec 32} {k : Nat} (hk : k < 32) (h : v.getLsbD k = false) :
    v ≠ 0xFFFFFFFF#32 := by
  rintro rfl
  have hone : (0xFFFFFFFF#32).getLsbD k = decide (k < 32) := BitVec.getLsbD_allOnes
  rw [hone] at h
  simp [hk] at h

theorem getLsbD_or_mask {v : BitVec 32} {j k : Nat} (hj : j < 32) :
    (v ||| mask k).getLsbD j = (v.getLsbD j || decide (j = k)) := by
  rw [BitVec.getLsbD_or, getLsbD_mask hj]

theorem getLsbD_and_not_mask {v : BitVec 32} {j k : Nat} (hj : j < 32) :
    (v &&& ~~~ mask k).getLsbD j = (v.getLsbD j && decide (j ≠ k)) := by
  rw [BitVec.getLsbD_and, BitVec.getLsbD_not, getLsbD_mask hj]
  simp [hj]

/-! ## The summary bit of a word -/

/-- The summary bit of word `w`. -/
def summaryBit (sb : Nat → BitVec 32) (w : Nat) : Bool := (sb (w / 32)).getLsbD (w % 32)

theorem summaryBit_set (sb : Nat → BitVec 32) (v w : Nat) :
    summaryBit (Function.update sb (v / 32) (sb (v / 32) ||| mask (v % 32))) w =
      (summaryBit sb w || decide (w = v)) := by
  unfold summaryBit
  by_cases hd : w / 32 = v / 32
  · have hiff : w % 32 = v % 32 ↔ w = v := by omega
    rw [hd, Function.update_self, getLsbD_or_mask (mod_lt_word w)]
    simp [hiff]
  · have hne : w ≠ v := fun h => hd (by rw [h])
    rw [Function.update_of_ne hd]
    simp [hne]

theorem summaryBit_clear (sb : Nat → BitVec 32) (v w : Nat) :
    summaryBit (Function.update sb (v / 32) (sb (v / 32) &&& ~~~ mask (v % 32))) w =
      (summaryBit sb w && decide (w ≠ v)) := by
  unfold summaryBit
  by_cases hd : w / 32 = v / 32
  · have hiff : w % 32 = v % 32 ↔ w = v := by omega
    rw [hd, Function.update_self, getLsbD_and_not_mask (mod_lt_word w)]
    simp [hiff]
  · have hne : w ≠ v := fun h => hd (by rw [h])
    rw [Function.update_of_ne hd]
    simp [hne]

theorem summarised_iff {s : State} :
    Summarised s ↔
      ∀ w < 32768, summaryBit s.summaryBitmap w = true ↔ s.bitmap w = 0xFFFFFFFF#32 :=
  Iff.rfl

/-! ## The mark helpers -/

/-- `pmm_mark_used` sets the summary bit when the word it writes becomes full,
and no write to a word makes a full word less full. -/
theorem Summarised.markUsed {s : State} (h : Summarised s) (f : Nat) :
    Summarised (markUsed s f) := by
  by_cases hf : totalFrames ≤ f
  · rwa [Pmm.markUsed, if_pos hf]
  rw [summarised_iff] at h ⊢
  intro w hw
  rw [Pmm.markUsed, if_neg hf]
  by_cases hwf : w = f / 32
  · subst hwf
    simp only [Function.update_self]
    by_cases hfull : s.bitmap (f / 32) ||| mask (f % 32) = 0xFFFFFFFF#32
    · rw [if_pos hfull, summaryBit_set]
      simp [hfull]
    · have hbefore : s.bitmap (f / 32) ≠ 0xFFFFFFFF#32 := fun hb => hfull (by rw [hb, full_or])
      rw [if_neg hfull, h _ hw]
      simp [hfull, hbefore]
  · simp only [Function.update_of_ne hwf]
    by_cases hfull : s.bitmap (f / 32) ||| mask (f % 32) = 0xFFFFFFFF#32
    · rw [if_pos hfull, summaryBit_set, ← h w hw]
      simp [hwf]
    · rw [if_neg hfull, h w hw]

/-- `pmm_mark_free` leaves a clear bit in its word and clears the summary bit. -/
theorem Summarised.markFree {s : State} (h : Summarised s) (f : Nat) :
    Summarised (markFree s f) := by
  by_cases hf : totalFrames ≤ f
  · rwa [Pmm.markFree, if_pos hf]
  rw [summarised_iff] at h ⊢
  intro w hw
  rw [Pmm.markFree, if_neg hf]
  simp only [summaryBit_clear]
  by_cases hwf : w = f / 32
  · subst hwf
    have hclear : (s.bitmap (f / 32) &&& ~~~ mask (f % 32)).getLsbD (f % 32) = false := by
      rw [getLsbD_and_not_mask (mod_lt_word f)]
      simp
    simp [ne_full_of_getLsbD (mod_lt_word f) hclear]
  · rw [Function.update_of_ne hwf, ← h w hw]
    simp [hwf]

theorem summarised_countUp {s : State} : Summarised s.countUp ↔ Summarised s := by
  simp only [Summarised, State.countUp]

theorem summarised_countDown {s : State} : Summarised s.countDown ↔ Summarised s := by
  simp only [Summarised, State.countDown]

/-! ## The operations -/

theorem Summarised.foldl {step : State → Nat → State}
    (hstep : ∀ s i, Summarised s → Summarised (step s i)) {s : State} (h : Summarised s)
    (is : List Nat) : Summarised (is.foldl step s) := by
  induction is generalizing s with
  | nil => exact h
  | cons i is ih => exact ih (hstep s i h)

theorem Summarised.reserveStep {s : State} (h : Summarised s) (a i : Nat) :
    Summarised (reserveStep a s i) := by
  simp only [Pmm.reserveStep]
  split
  · exact summarised_countDown.2 (h.markUsed _)
  · exact h

theorem Summarised.freeStep {s : State} (h : Summarised s) (a i : Nat) :
    Summarised (freeStep a s i) := by
  simp only [Pmm.freeStep]
  split
  · exact h
  · exact summarised_countUp.2 (h.markFree _)

theorem Summarised.releaseStep {s : State} (h : Summarised s) (a i : Nat) :
    Summarised (releaseStep a s i) := by
  simp only [Pmm.releaseStep]
  split
  · exact summarised_countUp.2 (h.markFree _)
  · exact h

theorem Summarised.reserveBlock {s : State} (h : Summarised s) (addr size : Nat) :
    Summarised (reserveBlock s addr size) :=
  Summarised.foldl (fun _ i hs => hs.reserveStep _ i) h _

theorem Summarised.freeBlock {s s' : State} {addr n : Nat} (h : Summarised s)
    (hret : freeBlock s addr n = .ret s') : Summarised s' := by
  simp only [Pmm.freeBlock] at hret
  split at hret
  · cases hret
  · cases hret
    exact Summarised.foldl (fun _ i hs => hs.freeStep _ i) h _

/-- The scan either finds no frame and writes nothing, or marks one frame. -/
theorem Summarised.allocFrame {s : State} (h : Summarised s) :
    Summarised (allocFrame s).1 := by
  rcases allocFrame_spec s with ⟨hnone, -⟩ | ⟨f, -, -, -, hsome⟩
  · rw [hnone]
    exact h
  · rw [hsome]
    exact summarised_countDown.2 (h.markUsed f)

theorem summarised_allUsed : Summarised allUsed := by
  intro w _
  have hone : (0xFFFFFFFF#32).getLsbD (w % 32) = true :=
    BitVec.getLsbD_allOnes.trans (decide_eq_true (mod_lt_word w))
  simp [allUsed, hone]

theorem Summarised.scanMap {s : State} (h : Summarised s) (map : List MemorymapEntry) :
    Summarised (scanMap map s) := by
  induction map generalizing s with
  | nil => exact h
  | cons entry rest ih =>
      unfold Pmm.scanMap
      split
      · exact h
      · apply ih
        split
        · exact Summarised.foldl (fun _ i hs => hs.releaseStep _ i) h _
        · exact h

theorem summarised_pmmInit (map : List MemorymapEntry) (kernelEnd : Nat) :
    Summarised (pmmInit map kernelEnd) := by
  have hlow := (summarised_allUsed.scanMap map).reserveBlock 0 0x100000
  simp only [pmmInit]
  apply Summarised.reserveBlock
  split
  · exact hlow.reserveBlock _ _
  · exact hlow

/-! ## Every run -/

/-- The states reached from `pmm_init` by calls with any arguments, allocated
before or not.  A call of `pmm_free_block` that panics ends the run. -/
inductive Runs (map : List MemorymapEntry) (kernelEnd : Nat) : State → Prop
  | init : Runs map kernelEnd (pmmInit map kernelEnd)
  | alloc {s : State} : Runs map kernelEnd s → Runs map kernelEnd (allocFrame s).1
  | free {s s' : State} (physicalAddress numFrames : Nat) : Runs map kernelEnd s →
      freeBlock s physicalAddress numFrames = .ret s' → Runs map kernelEnd s'
  | reserve {s : State} (physicalAddress size : Nat) : Runs map kernelEnd s →
      Runs map kernelEnd (reserveBlock s physicalAddress size)

/-- **The summary bitmap is exact.**  After `pmm_init` on any firmware map and
any sequence of allocations, frees and reservations with arbitrary arguments, the
summary bit of every word is set exactly when the word is full. -/
theorem summary_bitmap_exact {map : List MemorymapEntry} {kernelEnd : Nat} {s : State}
    (h : Runs map kernelEnd s) :
    ∀ w < 32768,
      (s.summaryBitmap (w / 32)).getLsbD (w % 32) = true ↔ s.bitmap w = 0xFFFFFFFF#32 := by
  suffices hs : Summarised s from hs
  induction h with
  | init => exact summarised_pmmInit map kernelEnd
  | alloc _ ih => exact ih.allocFrame
  | free _ _ _ hret ih => exact ih.freeBlock hret
  | reserve addr size _ ih => exact ih.reserveBlock addr size

/-- An allocation and a reservation on a machine with 16 MB of memory. -/
theorem summary_bitmap_exact_reserved :
    Summarised
      (reserveBlock (allocFrame (pmmInit [⟨0, 0x1000000, 1⟩] 0x30000)).1 0x900000 0x20000) := by
  have hinit : Runs [⟨0, 0x1000000, 1⟩] 0x30000 (pmmInit [⟨0, 0x1000000, 1⟩] 0x30000) :=
    Runs.init
  have hrun := Runs.reserve 0x900000 0x20000 (Runs.alloc hinit)
  exact summary_bitmap_exact hrun

end BenmoshOS.Pmm
