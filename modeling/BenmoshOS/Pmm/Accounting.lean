import BenmoshOS.Pmm.Invariant

/-!
# The physical memory manager: the counter of free frames

`free_frame_count` is meant to be the number of clear bits of the bitmap.  The
counter and the bitmap are changed by different statements under different tests,
so this file follows the difference of the two: `Excess s k` says that the counter
is `k` ahead of the bitmap, modulo 2^32.

* Allocation and reservation keep the excess.  `pmm_free_block` adds one for every
  frame number behind the end of the bitmap, since `pmm_is_frame_free` answers 0
  there and `pmm_mark_free` does nothing.
* `pmm_init` adds one for every frame it frees a second time.
-/

namespace BenmoshOS.Pmm

/-- The frames with a clear bit. -/
def freeFrames (s : State) : Finset Nat := (Finset.range totalFrames).filter fun f => ¬ Used s f

/-- The frames with a set bit. -/
def usedFrames (s : State) : Finset Nat := (Finset.range totalFrames).filter fun f => Used s f

/-- `free_frame_count` is the number of clear bits of the bitmap. -/
def Counted (s : State) : Prop := s.freeFrameCount = (freeFrames s).card

/-- `free_frame_count` is `k` ahead of the number of clear bits. -/
def Excess (s : State) (k : Nat) : Prop := s.freeFrameCount = wrap32 ((freeFrames s).card + k)

variable {s : State} {f k : Nat}

theorem mem_freeFrames : f ∈ freeFrames s ↔ f < totalFrames ∧ ¬ Used s f := by
  simp [freeFrames]

theorem freeFrames_congr {s' : State} (h : ∀ f, f < totalFrames → (Used s' f ↔ Used s f)) :
    freeFrames s' = freeFrames s := by
  ext f
  rw [mem_freeFrames, mem_freeFrames]
  exact and_congr_right fun hf => not_congr (h f hf)

theorem card_freeFrames_le (s : State) : (freeFrames s).card ≤ totalFrames := by
  have := Finset.card_filter_le (Finset.range totalFrames) fun f => ¬ Used s f
  rwa [Finset.card_range] at this

theorem card_usedFrames (s : State) :
    (usedFrames s).card = totalFrames - (freeFrames s).card := by
  have h := Finset.card_filter_add_card_filter_not (s := Finset.range totalFrames) (Used s ·)
  rw [Finset.card_range] at h
  unfold usedFrames freeFrames
  omega

/-! ## The excess of one step -/

theorem excess_zero : Excess s 0 ↔ Counted s := by
  have hle := card_freeFrames_le s
  have htf : totalFrames = 1048576 := rfl
  have hwrap : wrap32 (freeFrames s).card = (freeFrames s).card := Nat.mod_eq_of_lt (by omega)
  rw [Excess, Counted, Nat.add_zero, hwrap]

/-- The counter is right exactly when the excess is a multiple of 2^32. -/
theorem Excess.counted_iff (h : Excess s k) : Counted s ↔ k % 2 ^ 32 = 0 := by
  have hle := card_freeFrames_le s
  have htf : totalFrames = 1048576 := rfl
  unfold Excess wrap32 at h
  unfold Counted
  omega

theorem Excess.markUsed (h : Excess s k) (hf : f < totalFrames) (hu : ¬ Used s f) :
    Excess (markUsed s f).countDown k := by
  have hmem : f ∈ freeFrames s := mem_freeFrames.2 ⟨hf, hu⟩
  have heq : freeFrames (Pmm.markUsed s f).countDown = (freeFrames s).erase f := by
    ext g
    rw [mem_freeFrames, Finset.mem_erase, mem_freeFrames, used_countDown, used_markUsed hf, not_or]
    exact ⟨fun hg => ⟨hg.2.2, hg.1, hg.2.1⟩, fun hg => ⟨hg.2.1, hg.2.2, hg.1⟩⟩
  have hpos : 0 < (freeFrames s).card := Finset.card_pos.2 ⟨f, hmem⟩
  have hcount : (Pmm.markUsed s f).countDown.freeFrameCount =
      wrap32 (s.freeFrameCount + 2 ^ 32 - 1) := by
    rw [State.countDown, Pmm.markUsed, if_neg (by omega)]
  unfold Excess wrap32 at h ⊢
  rw [hcount, heq, Finset.card_erase_of_mem hmem, wrap32]
  omega

theorem Excess.markFree (h : Excess s k) (hf : f < totalFrames) (hu : Used s f) :
    Excess (markFree s f).countUp k := by
  have hmem : f ∉ freeFrames s := fun hf' => (mem_freeFrames.1 hf').2 hu
  have heq : freeFrames (Pmm.markFree s f).countUp = insert f (freeFrames s) := by
    ext g
    rw [mem_freeFrames, Finset.mem_insert, mem_freeFrames, used_countUp, used_markFree hf]
    constructor
    · rintro ⟨hg, hn⟩
      by_cases hgf : g = f
      · exact Or.inl hgf
      · exact Or.inr ⟨hg, fun hgu => hn ⟨hgu, hgf⟩⟩
    · rintro (rfl | ⟨hg, hn⟩)
      · exact ⟨hf, fun hc => hc.2 rfl⟩
      · exact ⟨hg, fun hc => hn hc.1⟩
  have hcount : (Pmm.markFree s f).countUp.freeFrameCount = wrap32 (s.freeFrameCount + 1) := by
    rw [State.countUp, Pmm.markFree, if_neg (by omega)]
  unfold Excess wrap32 at h ⊢
  rw [hcount, heq, Finset.card_insert_of_notMem hmem, wrap32]
  omega

/-- Counting up without clearing a bit. -/
theorem Excess.countUp {s' : State} (h : Excess s k)
    (heq : ∀ f, f < totalFrames → (Used s' f ↔ Used s f))
    (hcount : s'.freeFrameCount = wrap32 (s.freeFrameCount + 1)) : Excess s' (k + 1) := by
  unfold Excess wrap32 at h ⊢
  rw [hcount, freeFrames_congr heq, wrap32]
  omega

theorem markFree_of_le (hf : totalFrames ≤ f) : markFree s f = s := by
  rw [Pmm.markFree, if_pos hf]

/-! ## The operations -/

theorem Excess.reserveBlock (h : Excess s k) (addr size : Nat) :
    Excess (reserveBlock s addr size) k := by
  unfold Pmm.reserveBlock
  generalize wrap32 (size + 4095) / 4096 = n
  induction n with
  | zero => exact h
  | succ n ih =>
      rw [List.range_succ, List.foldl_append, List.foldl_cons, List.foldl_nil]
      unfold reserveStep
      dsimp only
      split
      · rename_i hfree
        have hf : wrap32 (addr / 4096 + n) < totalFrames := by
          by_contra hle
          rw [isFrameFree_of_le (Nat.le_of_not_lt hle)] at hfree
          cases hfree
        exact ih.markUsed hf ((isFrameFree_iff hf).1 hfree)
      · exact ih

theorem Excess.allocFrame (h : Excess s k) : Excess (allocFrame s).1 k := by
  rcases allocFrame_spec s with ⟨hnone, -⟩ | ⟨f, -, hf, hu, hsome⟩
  · rw [hnone]
    exact h
  · rw [hsome]
    exact h.markUsed hf hu

/-- The rounds of `pmm_free_block` whose frame number lies behind the bitmap. -/
def beyond (startingFrame n : Nat) : Nat :=
  (List.range n).countP fun i => decide (totalFrames ≤ wrap32 (startingFrame + i))

theorem Excess.freeSteps (h : Excess s k) (a n : Nat) :
    Excess ((List.range n).foldl (freeStep a) s) (k + beyond a n) := by
  unfold beyond
  induction n with
  | zero => exact h
  | succ n ih =>
      rw [List.range_succ, List.foldl_append, List.foldl_cons, List.foldl_nil, List.countP_append,
        ← Nat.add_assoc]
      unfold freeStep
      dsimp only
      by_cases hf : wrap32 (a + n) < totalFrames
      · -- inside the bitmap the guard and the bit agree
        have hcount : List.countP (fun i => decide (totalFrames ≤ wrap32 (a + i))) [n] = 0 := by
          simp [hf]
        rw [hcount, Nat.add_zero]
        split
        · exact ih
        · rename_i hfree
          exact ih.markFree hf (not_not.1 (mt (isFrameFree_iff hf).2 hfree))
      · have hle := Nat.le_of_not_lt hf
        have hcount : List.countP (fun i => decide (totalFrames ≤ wrap32 (a + i))) [n] = 1 := by
          simp [hle]
        rw [hcount, isFrameFree_of_le hle, markFree_of_le hle]
        exact ih.countUp (fun f _ => Iff.rfl) rfl

theorem beyond_le (a n : Nat) : beyond a n ≤ n := by
  have := List.countP_le_length (p := fun i => decide (totalFrames ≤ wrap32 (a + i)))
    (l := List.range n)
  rwa [List.length_range] at this

/-- A range stays inside the bitmap exactly when it ends before its end: the first
frame number behind the bitmap is below 2^32. -/
theorem beyond_eq_zero {a n : Nat} (ha : a < totalFrames) :
    beyond a n = 0 ↔ a + n ≤ totalFrames := by
  have htf : totalFrames = 1048576 := rfl
  unfold beyond
  rw [List.countP_eq_zero]
  constructor
  · intro h
    by_contra hlt
    have := h (totalFrames - a) (List.mem_range.2 (by omega))
    have hwrap : wrap32 (a + (totalFrames - a)) = totalFrames := by
      unfold wrap32
      omega
    simp [hwrap] at this
  · intro h i hi
    have hi' := List.mem_range.1 hi
    have hwrap : wrap32 (a + i) = a + i := Nat.mod_eq_of_lt (by omega)
    simp only [hwrap, decide_eq_true_eq]
    omega

/-! ## Balance -/

/-- `s` is the state `base` with the frames at the addresses `out` handed out on top. -/
structure Balanced (base s : State) (out : List Nat) : Prop where
  used_iff : ∀ f, Used s f ↔ Used base f ∨ f * 4096 ∈ out
  fresh : ∀ f, f * 4096 ∈ out → ¬ Used base f
  counter : ∀ k, Excess base k → Excess s k

namespace Balanced

variable {base s' : State} {out : List Nat} {a : Nat}

theorem refl (s : State) : Balanced s s [] := ⟨by simp, by simp, fun _ h => h⟩

theorem alloc (h : Balanced base s out) (hret : allocFrame s = (s', a)) :
    Balanced base s' (if a = 0 then out else a :: out) := by
  have hcount : ∀ k, Excess base k → Excess s' k := by
    intro k hk
    have := (h.counter k hk).allocFrame
    rwa [hret] at this
  rcases allocFrame_spec s with ⟨hnone, -⟩ | ⟨f, h0, hf, hu, hsome⟩
  · rw [hret] at hnone
    obtain ⟨rfl, rfl⟩ := Prod.mk.inj hnone
    rw [if_pos rfl]
    exact h
  · rw [hret] at hsome
    obtain ⟨hs, rfl⟩ := Prod.mk.inj hsome
    have hsame : ∀ g, g * 4096 ∈ f * 4096 :: out ↔ g = f ∨ g * 4096 ∈ out := by
      intro g
      rw [List.mem_cons]
      exact or_congr_left ⟨fun heq => by omega, fun heq => by rw [heq]⟩
    rw [if_neg (by omega)]
    refine ⟨fun g => ?_, fun g hg => ?_, hcount⟩
    · rw [hs, used_countDown, used_markUsed hf, h.used_iff, hsame]
      exact or_assoc.trans (or_congr_right or_comm)
    · rcases (hsame g).1 hg with rfl | hg
      · exact fun hb => hu ((h.used_iff g).2 (Or.inl hb))
      · exact h.fresh g hg

theorem free (h : Balanced base s out) (hnd : out.Nodup) (ha : a ∈ out)
    (hframe : ∃ f, a = f * 4096 ∧ f < totalFrames) (hret : freeBlock s a 1 = .ret s') :
    Balanced base s' (out.erase a) := by
  obtain ⟨f, rfl, hf⟩ := hframe
  have hu : Used s f := (h.used_iff f).2 (Or.inr ha)
  rw [freeBlock_one hf hu] at hret
  obtain rfl := Exec.ret.inj hret
  have hmem : ∀ g, g * 4096 ∈ out.erase (f * 4096) ↔ g ≠ f ∧ g * 4096 ∈ out := by
    intro g
    rw [hnd.mem_erase_iff]
    exact and_congr_left fun _ => ⟨fun hne heq => hne (by rw [heq]), fun hne heq => hne (by omega)⟩
  refine ⟨fun g => ?_, fun g hg => h.fresh g ((hmem g).1 hg).2,
    fun k hk => (h.counter k hk).markFree hf hu⟩
  rw [used_countUp, used_markFree hf, h.used_iff, hmem]
  constructor
  · rintro ⟨hb | hg, hne⟩
    · exact Or.inl hb
    · exact Or.inr ⟨hne, hg⟩
  · rintro (hb | ⟨hne, hg⟩)
    · exact ⟨Or.inl hb, fun heq => h.fresh f ha (heq ▸ hb)⟩
    · exact ⟨Or.inr hg, hne⟩

/-- As many more frames are in use as have been handed out. -/
theorem card_used (h : Balanced base s out) (hnd : out.Nodup)
    (hframe : ∀ a ∈ out, ∃ f, a = f * 4096 ∧ f < totalFrames) :
    (usedFrames s).card = (usedFrames base).card + out.length := by
  have heq : usedFrames s = usedFrames base ∪ (out.map (· / 4096)).toFinset := by
    ext f
    simp only [usedFrames, Finset.mem_filter, Finset.mem_range, Finset.mem_union, List.mem_toFinset,
      List.mem_map, h.used_iff]
    constructor
    · rintro ⟨hf, hb | ho⟩
      · exact Or.inl ⟨hf, hb⟩
      · exact Or.inr ⟨_, ho, by omega⟩
    · rintro (⟨hf, hb⟩ | ⟨a, ha, rfl⟩)
      · exact ⟨hf, Or.inl hb⟩
      · obtain ⟨g, rfl, hg⟩ := hframe a ha
        rw [Nat.mul_div_cancel g (by decide)]
        exact ⟨hg, Or.inr ha⟩
  have hdisj : Disjoint (usedFrames base) (out.map (· / 4096)).toFinset := by
    rw [Finset.disjoint_left]
    intro f hf ho
    obtain ⟨a, ha, rfl⟩ := List.mem_map.1 (List.mem_toFinset.1 ho)
    obtain ⟨g, rfl, -⟩ := hframe a ha
    rw [Nat.mul_div_cancel g (by decide)] at hf
    exact h.fresh g ha (Finset.mem_filter.1 hf).2
  have hnd' : (out.map (· / 4096)).Nodup := by
    refine hnd.map_on fun a ha b hb hab => ?_
    obtain ⟨f, rfl, -⟩ := hframe a ha
    obtain ⟨g, rfl, -⟩ := hframe b hb
    rw [Nat.mul_div_cancel f (by decide), Nat.mul_div_cancel g (by decide)] at hab
    rw [hab]
  rw [heq, Finset.card_union_of_disjoint hdisj, List.toFinset_card_of_nodup hnd', List.length_map]

/-- With nothing handed out the bitmap and the counter are those of the base. -/
theorem restored (h : Balanced base s []) (hlt : base.freeFrameCount < 2 ^ 32) :
    s.bitmap = base.bitmap ∧ s.freeFrameCount = base.freeFrameCount := by
  have hused : ∀ f, Used s f ↔ Used base f := by
    intro f
    rw [h.used_iff]
    simp
  constructor
  · funext w
    refine BitVec.eq_of_getLsbD_eq fun b hb => ?_
    have hbit := hused (w * 32 + b)
    unfold Used at hbit
    rw [show (w * 32 + b) / 32 = w by omega, show (w * 32 + b) % 32 = b by omega] at hbit
    exact Bool.eq_iff_iff.2 hbit
  · have hle := card_freeFrames_le base
    have htf : totalFrames = 1048576 := rfl
    have hbase : Excess base (base.freeFrameCount + 2 ^ 32 - (freeFrames base).card) := by
      unfold Excess wrap32
      omega
    have hs := h.counter _ hbase
    unfold Excess at hs hbase
    rw [hs, freeFrames_congr fun f _ => hused f]
    exact hbase.symm

end Balanced

/-- The calls that change the bitmap, with their 32-bit arguments. -/
inductive Call where
  | allocFrame
  | reserveBlock (physicalAddress size : UInt32)
  | freeBlock (physicalAddress numFrames : UInt32)

/-- The state after a call. -/
def Call.run : Call → State → Exec State
  | .allocFrame, s => .ret (Pmm.allocFrame s).1
  | .reserveBlock physicalAddress size, s =>
      .ret (Pmm.reserveBlock s physicalAddress.toNat size.toNat)
  | .freeBlock physicalAddress numFrames, s =>
      Pmm.freeBlock s physicalAddress.toNat numFrames.toNat

/-- The frames of a call of `pmm_free_block` end before the end of the bitmap. -/
def Call.InRange : Call → Prop
  | .freeBlock physicalAddress numFrames =>
      physicalAddress.toNat / 4096 + numFrames.toNat ≤ totalFrames
  | _ => True

/-- The statistics are right when the counter is. -/
theorem getStats_iff : getStats s = (totalFrames, (freeFrames s).card, (usedFrames s).card) ↔
    Counted s := by
  have hle := card_freeFrames_le s
  have htf : totalFrames = 1048576 := rfl
  have hused : Counted s → wrap32 (totalFrames + 2 ^ 32 - s.freeFrameCount) =
      (usedFrames s).card := by
    intro h
    rw [card_usedFrames, h, wrap32]
    omega
  constructor
  · intro h
    simp only [getStats, Prod.mk.injEq] at h
    exact h.2.1
  · intro h
    unfold getStats
    rw [hused h, show s.freeFrameCount = (freeFrames s).card from h]

/-- **Free-frame accounting.**  A call that returns keeps the counter equal to the
number of clear bits, and with it the statistics, exactly when it is no
`pmm_free_block` whose range runs past the end of the bitmap. -/
theorem accounting_kept_iff {s s' : State} {c : Call} (h : Counted s) (hrun : c.run s = .ret s') :
    (Counted s' ∧ getStats s' = (totalFrames, (freeFrames s').card, (usedFrames s').card)) ↔
      c.InRange := by
  rw [getStats_iff, and_self]
  have h₀ := excess_zero.2 h
  cases c with
  | allocFrame =>
      rw [← Exec.ret.inj hrun]
      exact iff_of_true (excess_zero.1 h₀.allocFrame) trivial
  | reserveBlock addr size =>
      rw [← Exec.ret.inj hrun]
      exact iff_of_true (excess_zero.1 (h₀.reserveBlock _ _)) trivial
  | freeBlock addr num =>
      have hnum := num.toNat_lt
      have haddr := addr.toNat_lt
      have htf : totalFrames = 1048576 := rfl
      simp only [Call.run, freeBlock] at hrun
      split at hrun
      · cases hrun
      · rw [← Exec.ret.inj hrun]
        have hex := h₀.freeSteps (addr.toNat / 4096) num.toNat
        have hle := beyond_le (addr.toNat / 4096) num.toNat
        rw [hex.counted_iff, Nat.zero_add, Nat.mod_eq_of_lt (by omega),
          beyond_eq_zero (by omega)]
        rfl

theorem used_allUsed (f : Nat) : Used allUsed f := by
  have h := used_of_full (s := allUsed) (w := f / 32) (b := f % 32) (Nat.mod_lt _ (by decide)) rfl
  have heq : f / 32 * 32 + f % 32 = f := by omega
  rwa [heq] at h

theorem freeFrames_allUsed : freeFrames allUsed = ∅ :=
  Finset.filter_eq_empty_iff.2 fun f _ hu => hu (used_allUsed f)

theorem counted_allUsed : Counted allUsed := by
  rw [Counted, freeFrames_allUsed]
  rfl

/-- Reserving the low megabyte of a machine without memory. -/
theorem accounting_kept_iff_reserve :
    Counted allUsed ∧ Counted (reserveBlock allUsed 0 0x100000) :=
  ⟨counted_allUsed, ((accounting_kept_iff (c := .reserveBlock 0 0x100000) counted_allUsed rfl).2
    trivial).1⟩

/-- Freeing the last frame of the address space and the one behind it counts two
frames and clears one bit. -/
theorem accounting_lost_at_the_end :
    Counted allUsed ∧
      ∃ s', (Call.freeBlock 0xFFFFF000 2).run allUsed = .ret s' ∧ ¬ Counted s' := by
  refine ⟨counted_allUsed, (List.range 2).foldl (freeStep 0xFFFFF) allUsed, ?_, ?_⟩
  · have hfree : isFrameFree allUsed 0xFFFFF = false := by
      rw [← Bool.not_eq_true]
      exact mt (isFrameFree_iff (by decide)).1 (not_not.2 (used_allUsed _))
    change freeBlock allUsed 0xFFFFF000 2 = _
    rw [freeBlock, show (0xFFFFF000 / 4096 : Nat) = 0xFFFFF from rfl, hfree]
    rfl
  · have hex := (excess_zero.2 counted_allUsed).freeSteps 0xFFFFF 2
    rw [hex.counted_iff]
    decide

end BenmoshOS.Pmm
