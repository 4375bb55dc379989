import BenmoshOS.Pmm.Frames

/-!
# The physical memory manager: what holds after every run

`Reaches map kernelEnd s out` says that the allocator state `s` is reached from
`pmm_init` on the firmware map `map` by allocating frames and freeing frames that
were handed out before, and that `out` are the addresses handed out and not yet
given back, in a list, so that an address vended twice would appear twice.
-/

namespace BenmoshOS.Pmm

/-- The frames that are never to be handed out: the low megabyte, the kernel
image behind it and the kernel heap. -/
def Protected (kernelEnd f : Nat) : Prop :=
  f < 256 ∨ (256 ≤ f ∧ f * 4096 < kernelEnd) ∨ (1024 ≤ f ∧ f < 2048)

/-- The states reached from `pmm_init`, with the addresses handed out. -/
inductive Reaches (map : List MemorymapEntry) (kernelEnd : Nat) : State → List Nat → Prop
  | init : kernelEnd < 2 ^ 32 → Reaches map kernelEnd (pmmInit map kernelEnd) []
  | alloc {s s' : State} {out : List Nat} {a : Nat} : Reaches map kernelEnd s out →
      allocFrame s = (s', a) → Reaches map kernelEnd s' (if a = 0 then out else a :: out)
  | free {s s' : State} {out : List Nat} {a : Nat} : Reaches map kernelEnd s out → a ∈ out →
      freeBlock s a 1 = .ret s' → Reaches map kernelEnd s' (out.erase a)

/-- What a run maintains: protected frames are in use, and the addresses handed
out are those of different frames in use, none of them protected. -/
structure Owned (kernelEnd : Nat) (s : State) (out : List Nat) : Prop where
  protected_used : ∀ f, Protected kernelEnd f → f < totalFrames → Used s f
  frame : ∀ a ∈ out, ∃ f, a = f * 4096 ∧ f ≠ 0 ∧ f < totalFrames ∧ Used s f ∧
    ¬ Protected kernelEnd f
  nodup : out.Nodup

theorem used_pmmInit {map : List MemorymapEntry} {kernelEnd f : Nat} (hke : kernelEnd < 2 ^ 32)
    (hp : Protected kernelEnd f) (hf : f < totalFrames) : Used (pmmInit map kernelEnd) f := by
  have hlow : wrap32 (0x100000 + 4095) / 4096 = 256 := rfl
  have hheap : wrap32 (0x400000 + 4095) / 4096 = 1024 := rfl
  have himage : wrap32 (kernelEnd - 0x100000 + 4095) = kernelEnd - 0x100000 + 4095 :=
    Nat.mod_eq_of_lt (by omega)
  simp only [pmmInit]
  rw [used_reserveBlock hf (by rw [hheap]; omega), hheap]
  by_cases hspill : 0x100000 < kernelEnd
  · rw [if_pos hspill, used_reserveBlock hf (by rw [himage]; omega), himage,
      used_reserveBlock hf (by rw [hlow]; omega), hlow]
    unfold Protected at hp
    omega
  · rw [if_neg hspill, used_reserveBlock hf (by rw [hlow]; omega), hlow]
    unfold Protected at hp
    omega

/-- An allocation keeps the invariant. -/
theorem Owned.alloc {kernelEnd a : Nat} {s s' : State} {out : List Nat}
    (h : Owned kernelEnd s out) (hret : allocFrame s = (s', a)) :
    Owned kernelEnd s' (if a = 0 then out else a :: out) := by
  rcases allocFrame_spec s with ⟨hnone, -⟩ | ⟨f, h0, hf, hu, hsome⟩
  · rw [hret] at hnone
    cases hnone
    simpa using h
  · rw [hret] at hsome
    cases hsome
    have ha : f * 4096 ≠ 0 := by omega
    have hmono : ∀ g, Used s g → Used (markUsed s f).countDown g := fun g hg => by
      rw [used_countDown, used_markUsed hf]
      exact Or.inl hg
    rw [if_neg ha]
    refine ⟨fun g hg hgt => hmono g (h.protected_used g hg hgt), ?_, ?_⟩
    · refine List.forall_mem_cons.2 ⟨⟨f, rfl, h0, hf, ?_, ?_⟩, fun b hb => ?_⟩
      · rw [used_countDown, used_markUsed hf]
        exact Or.inr rfl
      · exact fun hp => hu (h.protected_used f hp hf)
      · obtain ⟨g, rfl, hg0, hg, hgu, hgp⟩ := h.frame b hb
        exact ⟨g, rfl, hg0, hg, hmono g hgu, hgp⟩
    · refine List.nodup_cons.2 ⟨fun hmem => ?_, h.nodup⟩
      obtain ⟨g, hgf, -, -, hgu, -⟩ := h.frame _ hmem
      have : f = g := by omega
      exact hu (this ▸ hgu)

/-- Freeing an address that was handed out does not panic and keeps the
invariant. -/
theorem Owned.free {kernelEnd a : Nat} {s : State} {out : List Nat}
    (h : Owned kernelEnd s out) (ha : a ∈ out) :
    ∃ s', freeBlock s a 1 = .ret s' ∧ Owned kernelEnd s' (out.erase a) := by
  obtain ⟨f, rfl, h0, hf, hu, hp⟩ := h.frame a ha
  refine ⟨_, freeBlock_one hf hu, fun g hg hgt => ?_, fun b hb => ?_, h.nodup.erase _⟩
  · rw [used_countUp, used_markFree hf]
    exact ⟨h.protected_used g hg hgt, fun hgf => hp (hgf ▸ hg)⟩
  · obtain ⟨hne, hb⟩ := (h.nodup.mem_erase_iff).1 hb
    obtain ⟨g, rfl, hg0, hg, hgu, hgp⟩ := h.frame b hb
    refine ⟨g, rfl, hg0, hg, ?_, hgp⟩
    rw [used_countUp, used_markFree hf]
    exact ⟨hgu, fun hgf => hne (by rw [hgf])⟩

theorem Reaches.owned {map : List MemorymapEntry} {kernelEnd : Nat} {s : State} {out : List Nat}
    (h : Reaches map kernelEnd s out) : Owned kernelEnd s out := by
  induction h with
  | init hke => exact ⟨fun f hp hf => used_pmmInit hke hp hf, by simp, List.nodup_nil⟩
  | alloc _ hret ih => exact ih.alloc hret
  | @free s s' out a _ ha hret ih =>
      obtain ⟨s'', hret', hown⟩ := ih.free ha
      rw [hret] at hret'
      cases hret'
      exact hown

/-! ## A small machine -/

/-- Frames of `S` that the allocator may still hand out. -/
def Available (s : State) (S : Finset Nat) : Prop :=
  ∀ f ∈ S, f ≠ 0 ∧ f < totalFrames ∧ ¬ Used s f

/-- An allocation takes at most one of the frames that are available. -/
theorem Available.alloc {s s' : State} {S : Finset Nat} {k a : Nat} (h : Available s S)
    (hcard : k < S.card) (hal : allocFrame s = (s', a)) :
    a ≠ 0 ∧ ∃ S', Available s' S' ∧ k ≤ S'.card := by
  rcases allocFrame_spec s with ⟨-, hall⟩ | ⟨f, h0, hf, -, hsome⟩
  · obtain ⟨g, hg⟩ := Finset.card_pos.1 (Nat.zero_lt_of_lt hcard)
    obtain ⟨hg0, hglt, hgu⟩ := h g hg
    exact absurd (hall g hg0 hglt) hgu
  · rw [hal] at hsome
    obtain ⟨rfl, rfl⟩ := Prod.mk.inj hsome
    refine ⟨by omega, S.erase f, fun g hg => ?_, ?_⟩
    · obtain ⟨hne, hg⟩ := Finset.mem_erase.1 hg
      obtain ⟨hg0, hglt, hgu⟩ := h g hg
      rw [used_countDown, used_markUsed hf]
      exact ⟨hg0, hglt, fun hor => hor.elim hgu hne⟩
    · have := Finset.pred_card_le_card_erase (s := S) (a := f)
      omega

/-- A firmware map with three usable frames behind the heap. -/
def threeFrames : List MemorymapEntry := [⟨0x800000, 0x3000, 1⟩]

theorem available_threeFrames : Available (pmmInit threeFrames 0x30000) {2048, 2049, 2050} := by
  intro f hf
  have hrange : 2048 ≤ f ∧ f < 2051 := by
    simp only [Finset.mem_insert, Finset.mem_singleton] at hf
    omega
  have htf : totalFrames = 1048576 := rfl
  have hlow : wrap32 (0x100000 + 4095) / 4096 = 256 := rfl
  have hheap : wrap32 (0x400000 + 4095) / 4096 = 1024 := rfl
  have hscan : scanMap threeFrames allUsed = (markFree (markFree (markFree allUsed 2048).countUp
    2049).countUp 2050).countUp := rfl
  refine ⟨by omega, by omega, ?_⟩
  simp only [pmmInit]
  rw [used_reserveBlock (by omega) (by rw [hheap]; omega), hheap, if_neg (by norm_num),
    used_reserveBlock (by omega) (by rw [hlow]; omega), hlow, hscan, used_countUp,
    used_markFree (by decide), used_countUp, used_markFree (by decide), used_countUp,
    used_markFree (by decide)]
  omega

/-- **No frame is vended twice, and no protected frame at all.**  After any run
the addresses handed out are nonzero, page-aligned and pairwise distinct, none of
them lies in the low megabyte, in the kernel image or in the heap, and the next
allocation fails exactly when every frame but frame 0 is in use, leaving the
state alone. -/
theorem pmm_run_invariant {map : List MemorymapEntry} {kernelEnd : Nat} {s : State}
    {out : List Nat} (h : Reaches map kernelEnd s out) :
    out.Nodup ∧
      (∀ a ∈ out, a ≠ 0 ∧ 4096 ∣ a ∧ ¬ a < 0x100000 ∧ ¬ (0x100000 ≤ a ∧ a < kernelEnd) ∧
        ¬ (0x400000 ≤ a ∧ a < 0x800000)) ∧
      ((allocFrame s).2 = 0 ↔ ∀ f, f ≠ 0 → f < totalFrames → Used s f) ∧
      ((allocFrame s).2 = 0 → (allocFrame s).1 = s) := by
  have hown := h.owned
  refine ⟨hown.nodup, fun a ha => ?_, ?_, ?_⟩
  · obtain ⟨f, rfl, h0, hf, -, hp⟩ := hown.frame a ha
    unfold Protected at hp
    refine ⟨by omega, Dvd.intro_left f rfl, ?_, ?_, ?_⟩ <;> omega
  · rcases allocFrame_spec s with ⟨hnone, hall⟩ | ⟨f, h0, hf, hu, hsome⟩
    · rw [hnone]
      exact ⟨fun _ => hall, fun _ => rfl⟩
    · rw [hsome]
      exact ⟨fun hz => by simp only at hz; omega, fun hall => absurd (hall f h0 hf) hu⟩
  · rcases allocFrame_spec s with ⟨hnone, -⟩ | ⟨f, h0, -, -, hsome⟩
    · rw [hnone]
      exact fun _ => rfl
    · rw [hsome]
      exact fun hz => by simp only at hz; omega

/-- Two frames are taken and the first is given back: they were different, and the one that is
still out is not protected. -/
theorem pmm_run_invariant_first : ∃ s₁ a s₂ b s₃,
    allocFrame (pmmInit threeFrames 0x30000) = (s₁, a) ∧ a ≠ 0 ∧ allocFrame s₁ = (s₂, b) ∧ b ≠ 0 ∧
      a ≠ b ∧ freeBlock s₂ a 1 = .ret s₃ ∧ 4096 ∣ b ∧ ¬ b < 0x100000 ∧
      ((allocFrame s₃).2 = 0 ↔ ∀ f, f ≠ 0 → f < totalFrames → Used s₃ f) := by
  rcases h₁ : allocFrame (pmmInit threeFrames 0x30000) with ⟨s₁, a⟩
  rcases h₂ : allocFrame s₁ with ⟨s₂, b⟩
  obtain ⟨ha, S, hS, hcard⟩ := available_threeFrames.alloc (k := 2) (by decide) h₁
  obtain ⟨hb, -⟩ := hS.alloc (k := 1) (by omega) h₂
  have hrun : Reaches threeFrames 0x30000 s₂ [b, a] := by
    have hinit : Reaches threeFrames 0x30000 (pmmInit threeFrames 0x30000) [] := .init (by decide)
    have hfirst := hinit.alloc h₁
    rw [if_neg ha] at hfirst
    have hsecond := hfirst.alloc h₂
    rwa [if_neg hb] at hsecond
  have hne : a ≠ b := fun heq => by
    have hnodup := (pmm_run_invariant hrun).1
    simp [heq] at hnodup
  obtain ⟨s₃, hfree, -⟩ := hrun.owned.free (a := a) (by simp)
  have hout : [b, a].erase a = [b] := by simp [hne.symm]
  obtain ⟨-, hframe, hiff, -⟩ := pmm_run_invariant (hout ▸ hrun.free (by simp) hfree)
  obtain ⟨-, halign, hlow, -⟩ := hframe b (by simp)
  exact ⟨s₁, a, s₂, b, s₃, rfl, ha, h₂, hb, hne, hfree, halign, hlow, hiff⟩

end BenmoshOS.Pmm
