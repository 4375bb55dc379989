import BenmoshOS.Pmm.Frames

/-!
# The physical memory manager: what `pmm_reserve_block` protects

The range of bytes that a caller names need not begin or end at a frame boundary.  Its
frames are those of its first byte up to that of its last one (`touches_iff`).  The code
takes the frame of the first byte and rounds the *length* up on its own.  So it never marks
a frame too many, but it can miss frames at the end of the range:

* the last one, when the offset of the first byte in its frame and the length together
  reach one frame further than the length does;
* all of them, when the length is so near to 2^32 that rounding it up wraps around.

`protects_iff` says that the range is protected exactly when the missed frames were in use.
-/

namespace BenmoshOS.Pmm

/-- Frame `f` contains a byte of the range of `size` bytes at `addr`. -/
def Touches (addr size f : Nat) : Prop := ∃ x, addr ≤ x ∧ x < addr + size ∧ x / 4096 = f

/-- After the call the frames of the range are in use, and no other frame has changed. -/
def Protects (s : State) (addr size : Nat) : Prop :=
  ∀ f, f < totalFrames →
    (Touches addr size f → Used (reserveBlock s addr size) f) ∧
      (¬ Touches addr size f → (Used (reserveBlock s addr size) f ↔ Used s f))

/-- The frames of a range are consecutive. -/
theorem touches_iff {addr size f : Nat} (hsize : 0 < size) :
    Touches addr size f ↔ addr / 4096 ≤ f ∧ f ≤ (addr + (size - 1)) / 4096 := by
  constructor
  · rintro ⟨x, hle, hlt, rfl⟩
    exact ⟨Nat.div_le_div_right hle, Nat.div_le_div_right (by omega)⟩
  · rintro ⟨hle, hlt⟩
    -- the first byte of the frame that lies in the range
    refine ⟨max addr (f * 4096), le_max_left _ _, ?_, ?_⟩
    · rw [max_lt_iff]
      constructor <;> omega
    · rcases le_total addr (f * 4096) with h | h
      · rw [max_eq_right h, Nat.mul_div_cancel _ (by decide)]
      · rw [max_eq_left h]
        omega

theorem not_touches_zero {addr f : Nat} : ¬ Touches addr 0 f := by
  rintro ⟨x, hle, hlt, -⟩
  omega

/-! ## How many frames are marked -/

section Count

variable {addr size : Nat}

/-- The rounded length, as long as rounding does not wrap around. -/
theorem frames_of_le (hsize : 0 < size) (h : size ≤ 2 ^ 32 - 4096) :
    wrap32 (size + 4095) / 4096 = (size - 1) / 4096 + 1 := by
  have hwrap : wrap32 (size + 4095) = size + 4095 := Nat.mod_eq_of_lt (by omega)
  rw [hwrap]
  omega

/-- A length above that is rounded to zero. -/
theorem frames_of_lt (h : 2 ^ 32 - 4096 < size) (hsize : size < 2 ^ 32) :
    wrap32 (size + 4095) / 4096 = 0 := by
  unfold wrap32
  omega

/-- The marked frames are frames of the range. -/
theorem touches_of_marked {f : Nat} (hsize : size < 2 ^ 32) (hle : addr / 4096 ≤ f)
    (hlt : f < addr / 4096 + wrap32 (size + 4095) / 4096) : Touches addr size f := by
  have hpos : 0 < size := by
    by_contra hzero
    obtain rfl : size = 0 := by omega
    rw [show wrap32 (0 + 4095) / 4096 = 0 from rfl] at hlt
    omega
  rw [touches_iff hpos]
  rcases Nat.lt_or_ge (2 ^ 32 - 4096) size with hbig | hsmall
  · rw [frames_of_lt hbig hsize] at hlt
    omega
  · rw [frames_of_le hpos hsmall] at hlt
    omega

/-- The range is protected when the frames that are not marked were in use. -/
theorem protects_iff_missed {s : State} (hsize : size < 2 ^ 32) (hrange : addr + size ≤ 2 ^ 32) :
    Protects s addr size ↔
      ∀ f, Touches addr size f → addr / 4096 + wrap32 (size + 4095) / 4096 ≤ f → Used s f := by
  have hcount : wrap32 (size + 4095) / 4096 < 2 ^ 20 := by
    unfold wrap32
    omega
  have hused : ∀ f, f < totalFrames → (Used (reserveBlock s addr size) f ↔
      Used s f ∨ addr / 4096 ≤ f ∧ f < addr / 4096 + wrap32 (size + 4095) / 4096) :=
    fun f hf => used_reserveBlock hf (by omega)
  constructor
  · intro h f htouch hmissed
    have hf : f < totalFrames := by
      obtain ⟨x, -, hx, rfl⟩ := htouch
      show x / 4096 < 1048576
      omega
    rcases (hused f hf).1 ((h f hf).1 htouch) with hs | ⟨-, hlt⟩
    · exact hs
    · omega
  · intro h f hf
    rw [hused f hf]
    constructor
    · intro htouch
      rcases Nat.lt_or_ge f (addr / 4096 + wrap32 (size + 4095) / 4096) with hlt | hge
      · obtain ⟨x, hx, -, rfl⟩ := htouch
        exact Or.inr ⟨Nat.div_le_div_right hx, hlt⟩
      · exact Or.inl (h f htouch hge)
    · intro htouch
      refine ⟨fun hs => hs.elim id fun ⟨hle, hlt⟩ => ?_, Or.inl⟩
      exact absurd (touches_of_marked hsize hle hlt) htouch

end Count

/-! ## What is protected -/

/-- The two roundings fit each other, or the frames they miss were in use already. -/
def Covers (s : State) (addr size : Nat) : Prop :=
  size = 0 ∨
  (size ≤ 2 ^ 32 - 4096 ∧
    (addr % 4096 + (size - 1) % 4096 < 4096 ∨ Used s ((addr + (size - 1)) / 4096))) ∨
  (2 ^ 32 - 4096 < size ∧ ∀ f, Touches addr size f → Used s f)

/-- **What `pmm_reserve_block` protects.**  Every frame with a byte of the range is in use
after the call, and the others are as they were, exactly when the offset in the first frame
and the length fit into the frames of the rounded length, or the last frame was in use, or,
for a length that wraps around, all the frames were. -/
theorem protects_iff (s : State) {addr size : Nat} (hsize : size < 2 ^ 32)
    (hrange : addr + size ≤ 2 ^ 32) : Protects s addr size ↔ Covers s addr size := by
  rw [protects_iff_missed hsize hrange]
  rcases Nat.eq_zero_or_pos size with rfl | hpos
  · exact iff_of_true (fun f htouch => absurd htouch not_touches_zero) (Or.inl rfl)
  unfold Covers
  rcases Nat.lt_or_ge (2 ^ 32 - 4096) size with hbig | hsmall
  · -- nothing is marked
    rw [frames_of_lt hbig hsize]
    constructor
    · intro h
      refine Or.inr (Or.inr ⟨hbig, fun f htouch => h f htouch ?_⟩)
      exact ((touches_iff hpos).1 htouch).1
    · rintro (h | ⟨h, -⟩ | ⟨-, h⟩)
      · omega
      · omega
      · exact fun f htouch _ => h f htouch
  · rw [frames_of_le hpos hsmall]
    constructor
    · intro h
      refine Or.inr (Or.inl ⟨hsmall, ?_⟩)
      by_cases hfit : addr % 4096 + (size - 1) % 4096 < 4096
      · exact Or.inl hfit
      · -- the last frame is one behind the marked ones
        refine Or.inr (h _ ((touches_iff hpos).2 ⟨?_, le_refl _⟩) ?_)
        · exact Nat.div_le_div_right (Nat.le_add_right _ _)
        · omega
    · rintro (h | ⟨-, h⟩ | ⟨h, -⟩) f htouch hmissed
      · omega
      · obtain ⟨-, hlast⟩ := (touches_iff hpos).1 htouch
        rcases h with hfit | hused
        · omega
        · obtain rfl : f = (addr + (size - 1)) / 4096 := by omega
          exact hused
      · omega

/-- The heap region of `pmm_init`. -/
theorem protects_iff_heap :
    Protects allUsed 0x400000 0x400000 ∧
      (Protects allUsed 0x400000 0x400000 ↔ Covers allUsed 0x400000 0x400000) :=
  have hiff : Protects allUsed 0x400000 0x400000 ↔ Covers allUsed 0x400000 0x400000 :=
    protects_iff allUsed (by decide) (by decide)
  ⟨hiff.2 (Or.inr (Or.inl ⟨by decide, Or.inl (by decide)⟩)), hiff⟩

/-- All frames free. -/
def allFree : State :=
  { bitmap := fun _ => 0, summaryBitmap := fun _ => 0, freeFrameCount := totalFrames }

/-- Two bytes across a frame boundary: the second frame is not marked. -/
theorem protects_unaligned_false :
    ¬ ∀ (s : State) (addr size : Nat), size < 2 ^ 32 → addr + size ≤ 2 ^ 32 →
      Protects s addr size := by
  intro h
  have hprot := h allFree 0x1FFF 2 (by decide) (by decide)
  have hused : Used allFree 2 :=
    (protects_iff_missed (by decide) (by decide)).1 hprot 2 ⟨0x2000, by decide⟩ (by decide)
  revert hused
  decide

end BenmoshOS.Pmm
