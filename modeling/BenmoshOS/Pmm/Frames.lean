import BenmoshOS.Pmm.Basic

/-!
# The physical memory manager: frames in use

`Used s f` says that the bit of frame `f` is set.  The lemmas of this file say
what each operation of the allocator does to that set of frames: marking,
reserving, freeing, and `allocFrame_spec` for the allocation scan.
-/

namespace BenmoshOS.Pmm

/-- The bit of frame `f` is set. -/
def Used (s : State) (f : Nat) : Prop := (s.bitmap (f / 32)).getLsbD (f % 32) = true

instance (s : State) (f : Nat) : Decidable (Used s f) := by
  unfold Used
  infer_instance

theorem getLsbD_mask {k j : Nat} (hj : j < 32) :
    (mask k).getLsbD j = decide (j = k) := by
  unfold mask
  rw [BitVec.getLsbD_shiftLeft, BitVec.getLsbD_one]
  simp only [hj, decide_true, Bool.true_and]
  by_cases h : j = k
  · simp [h]
  · by_cases h' : j < k
    · simp [h', h]
    · have : j - k ≠ 0 := by omega
      simp [h, this]

theorem and_mask_eq_zero {v : BitVec 32} {k : Nat} (hk : k < 32) :
    v &&& mask k = 0#32 ↔ v.getLsbD k = false := by
  constructor
  · intro h
    have := congrArg (fun w => w.getLsbD k) h
    simpa [getLsbD_mask hk] using this
  · intro h
    apply BitVec.eq_of_getLsbD_eq
    intro i hi
    rw [BitVec.getLsbD_and, getLsbD_mask hi]
    by_cases hik : i = k
    · simp [hik, h]
    · simp [hik]

theorem isFrameFree_iff {s : State} {f : Nat} (hf : f < totalFrames) :
    isFrameFree s f = true ↔ ¬ Used s f := by
  rw [isFrameFree, if_neg (by omega), beq_iff_eq, and_mask_eq_zero (Nat.mod_lt _ (by decide)),
    Used]
  simp

theorem isFrameFree_of_le {s : State} {f : Nat} (hf : totalFrames ≤ f) :
    isFrameFree s f = false := by
  rw [isFrameFree, if_pos hf]

/-! ## One frame -/

@[simp] theorem used_countUp {s : State} {f : Nat} : Used s.countUp f ↔ Used s f := Iff.rfl

@[simp] theorem used_countDown {s : State} {f : Nat} : Used s.countDown f ↔ Used s f := by
  simp [Used, State.countDown]

theorem used_markUsed {s : State} {f g : Nat} (hf : f < totalFrames) :
    Used (markUsed s f) g ↔ Used s g ∨ g = f := by
  have hb : ∀ n : Nat, n % 32 < 32 := fun n => Nat.mod_lt _ (by decide)
  rw [markUsed, if_neg (by omega)]
  simp only [Used]
  by_cases hw : g / 32 = f / 32
  · have hgf : g % 32 = f % 32 ↔ g = f := by omega
    rw [hw, Function.update_self, BitVec.getLsbD_or, getLsbD_mask (hb g)]
    simp [hgf]
  · rw [Function.update_of_ne hw]
    have : g ≠ f := fun h => hw (by rw [h])
    simp [this]

theorem used_markFree {s : State} {f g : Nat} (hf : f < totalFrames) :
    Used (markFree s f) g ↔ Used s g ∧ g ≠ f := by
  have hb : ∀ n : Nat, n % 32 < 32 := fun n => Nat.mod_lt _ (by decide)
  rw [markFree, if_neg (by omega)]
  simp only [Used]
  by_cases hw : g / 32 = f / 32
  · have hgf : g % 32 = f % 32 ↔ g = f := by omega
    rw [hw, Function.update_self, BitVec.getLsbD_and, BitVec.getLsbD_not,
      getLsbD_mask (hb g)]
    simp [hgf, hb g]
  · rw [Function.update_of_ne hw]
    have : g ≠ f := fun h => hw (by rw [h])
    simp [this]

/-! ## Ranges -/

theorem used_reserveStep {s : State} {a i g : Nat} (hg : g < totalFrames) :
    Used (reserveStep a s i) g ↔ Used s g ∨ g = wrap32 (a + i) := by
  unfold reserveStep
  by_cases hf : wrap32 (a + i) < totalFrames
  · by_cases hfree : isFrameFree s (wrap32 (a + i)) = true
    · simp only [hfree, if_true, used_countDown, used_markUsed hf]
    · have hu := mt (isFrameFree_iff hf).2 hfree
      rw [not_not] at hu
      simp only [hfree]
      exact ⟨Or.inl, fun h => h.elim id (fun h => h ▸ hu)⟩
  · have : g ≠ wrap32 (a + i) := by omega
    simp [isFrameFree_of_le (Nat.le_of_not_lt hf), this]

/-- Reserving marks the frames of its range and touches no other. -/
theorem used_reserveBlock {s : State} {addr size g : Nat} (hg : g < totalFrames)
    (ha : addr / 4096 + wrap32 (size + 4095) / 4096 < 2 ^ 32) :
    Used (reserveBlock s addr size) g ↔
      Used s g ∨ addr / 4096 ≤ g ∧ g < addr / 4096 + wrap32 (size + 4095) / 4096 := by
  unfold reserveBlock
  generalize wrap32 (size + 4095) / 4096 = n at ha ⊢
  induction n with
  | zero => simp
  | succ n ih =>
      rw [List.range_succ, List.foldl_append, List.foldl_cons, List.foldl_nil,
        used_reserveStep hg, ih (by omega)]
      have hw : wrap32 (addr / 4096 + n) = addr / 4096 + n := Nat.mod_eq_of_lt (by omega)
      rw [hw]
      constructor
      · rintro ((h | h) | h)
        · exact Or.inl h
        · exact Or.inr (by omega)
        · exact Or.inr (by omega)
      · rintro (h | h)
        · exact Or.inl (Or.inl h)
        · by_cases hn : g = addr / 4096 + n
          · exact Or.inr hn
          · exact Or.inl (Or.inr (by omega))

/-- Freeing one frame that is in use clears its bit and no other. -/
theorem freeBlock_one {s : State} {f : Nat} (hf : f < totalFrames) (hu : Used s f) :
    freeBlock s (f * 4096) 1 = .ret (markFree s f).countUp := by
  have hdiv : f * 4096 / 4096 = f := by omega
  have htf : totalFrames = 1048576 := rfl
  have hwrap : wrap32 f = f := Nat.mod_eq_of_lt (by omega)
  have hnf : isFrameFree s f = false := by
    rw [← Bool.not_eq_true]
    exact mt (isFrameFree_iff hf).1 (not_not.2 hu)
  simp [freeBlock, hdiv, hnf, List.range_succ, freeStep, hwrap]

/-! ## The allocation scan -/

/-- The inner loop skips a frame that is in use and frame 0, and takes any
other. -/
theorem allocInWord_cons {s : State} {w b : Nat} {bits : List Nat} (hb : b < 32) :
    allocInWord s w (b :: bits) =
      if Used s (w * 32 + b) ∨ w * 32 + b = 0 then allocInWord s w bits
      else some ((markUsed s (w * 32 + b)).countDown, (w * 32 + b) * 4096) := by
  have hdiv : (w * 32 + b) / 32 = w := by omega
  have hmod : (w * 32 + b) % 32 = b := by omega
  simp only [allocInWord, and_mask_eq_zero hb, Used, hdiv, hmod]
  cases (s.bitmap w).getLsbD b <;> simp

theorem allocInWord_eq_none {s : State} {w : Nat} {bits : List Nat} (hb : ∀ b ∈ bits, b < 32) :
    allocInWord s w bits = none → ∀ b ∈ bits, w * 32 + b ≠ 0 → Used s (w * 32 + b) := by
  induction bits with
  | nil => simp
  | cons b bits ih =>
      intro h
      rw [allocInWord_cons (hb b (by simp))] at h
      split_ifs at h with hskip
      refine List.forall_mem_cons.2 ⟨fun h0 => hskip.resolve_right h0, ?_⟩
      exact ih (fun c hc => hb c (by simp [hc])) h

theorem allocInWord_eq_some {s : State} {w : Nat} {bits : List Nat} {r : State × Nat}
    (hb : ∀ b ∈ bits, b < 32) (h : allocInWord s w bits = some r) :
    ∃ b ∈ bits, w * 32 + b ≠ 0 ∧ ¬ Used s (w * 32 + b) ∧
      r = ((markUsed s (w * 32 + b)).countDown, (w * 32 + b) * 4096) := by
  induction bits with
  | nil => simp [allocInWord] at h
  | cons b bits ih =>
      rw [allocInWord_cons (hb b (by simp))] at h
      split_ifs at h with hskip
      · obtain ⟨c, hc, hrest⟩ := ih (fun c hc => hb c (by simp [hc])) h
        exact ⟨c, List.mem_cons_of_mem _ hc, hrest⟩
      · rw [not_or] at hskip
        exact ⟨b, by simp, hskip.2, hskip.1, (Option.some.inj h).symm⟩

/-- A full word has no frame to give. -/
theorem used_of_full {s : State} {w b : Nat} (hb : b < 32) (h : s.bitmap w = 0xFFFFFFFF#32) :
    Used s (w * 32 + b) := by
  have hdiv : (w * 32 + b) / 32 = w := by omega
  have hmod : (w * 32 + b) % 32 = b := by omega
  have hones : (0xFFFFFFFF#32) = BitVec.allOnes 32 := rfl
  rw [Used, hdiv, hmod, h, hones, BitVec.getLsbD_allOnes]
  simpa using hb

theorem allocInWords_spec {s : State} (words : List Nat) (hw : ∀ w ∈ words, w < 32768) :
    (allocInWords s words = (s, 0) ∧
        ∀ w ∈ words, ∀ b, b < 32 → w * 32 + b ≠ 0 → Used s (w * 32 + b)) ∨
      ∃ f, f ≠ 0 ∧ f < totalFrames ∧ ¬ Used s f ∧
        allocInWords s words = ((markUsed s f).countDown, f * 4096) := by
  induction words with
  | nil => exact Or.inl ⟨rfl, by simp⟩
  | cons w words ih =>
      have hw32 : w < 32768 := hw w (by simp)
      have hbits : ∀ b ∈ List.range 32, b < 32 := fun b hb => List.mem_range.1 hb
      have htf : totalFrames = 1048576 := rfl
      by_cases hnone : allocInWords s (w :: words) = allocInWords s words ∧
          ∀ b, b < 32 → w * 32 + b ≠ 0 → Used s (w * 32 + b)
      · rw [hnone.1]
        rcases ih fun v hv => hw v (by simp [hv]) with ⟨h1, h2⟩ | hsome
        · exact Or.inl ⟨h1, List.forall_mem_cons.2 ⟨hnone.2, h2⟩⟩
        · exact Or.inr hsome
      · -- the word is not full, and its scan does not come back empty-handed
        have hfull : s.bitmap w ≠ 0xFFFFFFFF#32 := fun hfull => hnone
          ⟨by rw [allocInWords, if_neg (not_not.2 hfull)], fun b hb _ => used_of_full hb hfull⟩
        cases hword : allocInWord s w (List.range 32) with
        | none =>
            refine absurd ⟨by rw [allocInWords, if_pos hfull, hword], fun b hb => ?_⟩ hnone
            exact allocInWord_eq_none hbits hword b (List.mem_range.2 hb)
        | some r =>
            obtain ⟨b, hb, h0, hu, rfl⟩ := allocInWord_eq_some hbits hword
            have hb32 := List.mem_range.1 hb
            refine Or.inr ⟨w * 32 + b, h0, by omega, hu, ?_⟩
            rw [allocInWords, if_pos hfull, hword]

/-- **What `pmm_alloc_frame` does.**  Either it returns 0 with nothing changed and
every frame but frame 0 is in use, or it returns the address of a frame that was
not in use and marks it. -/
theorem allocFrame_spec (s : State) :
    (allocFrame s = (s, 0) ∧ ∀ f, f ≠ 0 → f < totalFrames → Used s f) ∨
      ∃ f, f ≠ 0 ∧ f < totalFrames ∧ ¬ Used s f ∧
        allocFrame s = ((markUsed s f).countDown, f * 4096) := by
  rcases allocInWords_spec (s := s) (List.range 32768) (fun w hw => List.mem_range.1 hw) with
    ⟨h1, h2⟩ | h
  · refine Or.inl ⟨h1, fun f h0 hf => ?_⟩
    have htf : totalFrames = 1048576 := rfl
    have heq : f / 32 * 32 + f % 32 = f := by omega
    have := h2 (f / 32) (List.mem_range.2 (by omega)) (f % 32) (by omega) (by omega)
    rwa [heq] at this
  · exact Or.inr h

/-- A failed allocation changes nothing. -/
theorem allocFrame_eq_zero {s s' : State} (h : allocFrame s = (s', 0)) : s' = s := by
  rcases allocFrame_spec s with ⟨hnone, -⟩ | ⟨f, h0, -, -, hsome⟩
  · rw [h] at hnone
    exact (Prod.mk.inj hnone).1
  · rw [h] at hsome
    have := (Prod.mk.inj hsome).2
    omega

end BenmoshOS.Pmm
