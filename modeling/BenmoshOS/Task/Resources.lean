import BenmoshOS.Pmm.Accounting
import BenmoshOS.Task.Queues

/-!
# What a task owns

Every task but the kernel's own was made by `task_create`: its control block and
its stack are blocks of the heap, its page directory is a frame.  `Resources` says
that a set of tasks owns these, each task its own, in a heap and a frame allocator
that are in order.  It is kept by every change of memory that leaves those blocks
and frames alone (`Resources.frame`), it grows with a new task
(`Resources.insert`), and it is what makes the release of a task safe.

`Conserves base` says that nothing else is owned: the heap and the frame allocator are
what they were in `base`, before the first task, with the blocks and frames of the tasks
on top.
-/

namespace BenmoshOS.Task

open Heap (Mem Holds Freed KeepsPayload KeepsOutside AlignedIn payloadSize heapStart heapEnd)
open Vmm

/-- The tasks `users` own their control blocks, stacks and page directories.  The
heap block that holds the stack of `t` is `raw t`. -/
structure Resources (img : Image) (mem : Mem) (frames : Pmm.State) (pcb : Nat → Pcb)
    (users : Set Nat) (live : Finset Nat) (out : List Nat) (raw : Nat → Nat) : Prop where
  heap : Holds mem live
  owned : Pmm.Owned img.kernelEnd frames out
  pcb_live : ∀ t ∈ users, t ∈ live ∧ pcbSize ≤ payloadSize mem t
  stack_live : ∀ t ∈ users, raw t ∈ live ∧ AlignedIn mem (raw t) stackSize 16 (pcb t).stackBase
  directory : ∀ t ∈ users, (pcb t).cr3 ∈ out ∧ NoUserEntries mem (pcb t).cr3
  raw_ne : ∀ t ∈ users, ∀ u ∈ users, raw t ≠ u
  raw_inj : ∀ t ∈ users, ∀ u ∈ users, raw t = raw u → t = u
  cr3_inj : ∀ t ∈ users, ∀ u ∈ users, (pcb t).cr3 = (pcb u).cr3 → t = u

namespace Resources

variable {img : Image} {mem mem' : Mem} {frames frames' : Pmm.State} {pcb pcb' : Nat → Pcb}
  {users users' : Set Nat} {live live' : Finset Nat} {out out' : List Nat} {raw : Nat → Nat}

/-- A page directory keeps its entries when memory is only changed in the heap, in
the entry of the scratchpad, or in another frame. -/
theorem noUserEntries_congr {a : Nat} (hz : NoUserEntries mem a)
    (hm : ∀ x, a ≤ x → x < a + 4096 → mem' x = mem x) : NoUserEntries mem' a :=
  fun i hi hi' => by rw [hm _ (by omega) (by omega), hz i hi hi']

/-- Fewer tasks, and a change of memory that leaves their blocks and frames alone. -/
theorem frame (h : Resources img mem frames pcb users live out raw)
    (hheap : Holds mem' live') (howned : Pmm.Owned img.kernelEnd frames' out')
    (hsub : ∀ t ∈ users', t ∈ users)
    (hpcb : ∀ t ∈ users', (pcb' t).stackBase = (pcb t).stackBase ∧ (pcb' t).cr3 = (pcb t).cr3)
    (hblock : ∀ t ∈ users', t ∈ live' ∧ KeepsPayload mem mem' t)
    (hstack : ∀ t ∈ users', raw t ∈ live' ∧ KeepsPayload mem mem' (raw t))
    (hdir : ∀ t ∈ users', (pcb t).cr3 ∈ out' ∧
      ∀ x, (pcb t).cr3 ≤ x → x < (pcb t).cr3 + 4096 → mem' x = mem x) :
    Resources img mem' frames' pcb' users' live' out' raw where
  heap := hheap
  owned := howned
  pcb_live t ht := ⟨(hblock t ht).1, by
    rw [(hblock t ht).2.1]
    exact (h.pcb_live t (hsub t ht)).2⟩
  stack_live t ht := ⟨(hstack t ht).1, by
    rw [(hpcb t ht).1]
    exact (h.stack_live t (hsub t ht)).2.congr (hstack t ht).2⟩
  directory t ht := by
    obtain ⟨-, hz⟩ := h.directory t (hsub t ht)
    rw [(hpcb t ht).2]
    exact ⟨(hdir t ht).1, noUserEntries_congr hz (hdir t ht).2⟩
  raw_ne t ht u hu := h.raw_ne t (hsub t ht) u (hsub u hu)
  raw_inj t ht u hu := h.raw_inj t (hsub t ht) u (hsub u hu)
  cr3_inj t ht u hu heq := h.cr3_inj t (hsub t ht) u (hsub u hu) (by
    rw [← (hpcb t ht).2, ← (hpcb u hu).2, heq])

/-- The scheduler's own bookkeeping in the control blocks touches no resource. -/
theorem pcb_congr (h : Resources img mem frames pcb users live out raw)
    (hpcb : ∀ t ∈ users, (pcb' t).stackBase = (pcb t).stackBase ∧ (pcb' t).cr3 = (pcb t).cr3) :
    Resources img mem frames pcb' users live out raw :=
  h.frame h.heap h.owned (fun _ ht => ht) hpcb
    (fun t ht => ⟨(h.pcb_live t ht).1, KeepsPayload.refl mem t⟩)
    (fun t ht => ⟨(h.stack_live t ht).1, KeepsPayload.refl mem (raw t)⟩)
    (fun t ht => ⟨(h.directory t ht).1, fun _ _ _ => rfl⟩)

/-- A frame that is handed out is untouched by changes of the heap and of the entry
of the scratchpad. -/
theorem directory_outside (h : Resources img mem frames pcb users live out raw) {t : Nat}
    (ht : t ∈ users) {x : Nat} (hx : (pcb t).cr3 ≤ x) (hx' : x < (pcb t).cr3 + 4096) :
    (x < heapStart ∨ heapEnd ≤ x) ∧ x ≠ scratchEntry img := by
  have hu := userFrame_of_owned h.owned (h.directory t ht).1
  exact ⟨hu.heap_outside hx hx', hu.ne_scratchEntry hx⟩

/-- A change of the heap that keeps the blocks of all tasks. -/
theorem heap_congr (h : Resources img mem frames pcb users live out raw)
    (hheap : Holds mem' live') (hlive : ∀ t ∈ users, t ∈ live' ∧ raw t ∈ live')
    (hkeep : ∀ q ∈ live, q ∈ live' → KeepsPayload mem mem' q) (hout : KeepsOutside mem mem') :
    Resources img mem' frames pcb users live' out raw :=
  h.frame hheap h.owned (fun _ ht => ht) (fun _ _ => ⟨rfl, rfl⟩)
    (fun t ht => ⟨(hlive t ht).1, hkeep t (h.pcb_live t ht).1 (hlive t ht).1⟩)
    (fun t ht => ⟨(hlive t ht).2, hkeep (raw t) (h.stack_live t ht).1 (hlive t ht).2⟩)
    (fun t ht => ⟨(h.directory t ht).1, fun x hx hx' => hout x (h.directory_outside ht hx hx').1⟩)

/-- A fresh control block is none of the blocks in use. -/
theorem notMem_of_fresh (h : Resources img mem frames pcb users live out raw) {p : Nat}
    (hp : p ∉ live) : p ∉ users ∧ ∀ t ∈ users, raw t ≠ p :=
  ⟨fun hu => hp (h.pcb_live p hu).1, fun t ht hraw => hp (hraw ▸ (h.stack_live t ht).1)⟩

/-! ## Release -/

/-- After the three releases of `reap_dead_tasks` the other tasks still own what
they owned. -/
theorem release (h : Resources img mem frames pcb users live out raw) {d : Nat} (hd : d ∈ users)
    {mem₁ mem₂ mem₃ : Mem} (howned : Pmm.Owned img.kernelEnd frames' (out.erase (pcb d).cr3))
    (h₁ : ∀ x, x ≠ scratchEntry img → mem₁ x = mem x) (h₂ : Freed mem₁ live (raw d) mem₂)
    (h₃ : Freed mem₂ (live.erase (raw d)) d mem₃) :
    Resources img mem₃ frames' pcb (users \ {d}) ((live.erase (raw d)).erase d)
      (out.erase (pcb d).cr3) raw := by
  obtain ⟨-, hkeep₂, hout₂⟩ := h₂
  obtain ⟨hheap, hkeep₃, hout₃⟩ := h₃
  have hheap₁ : ∀ x, heapStart ≤ x → x < heapEnd → mem₁ x = mem x := fun x hx _ =>
    h₁ x fun hxs => by
      have := scratchEntry_lt img
      omega
  have hkeep : ∀ q ∈ live, q ≠ raw d → q ≠ d → KeepsPayload mem mem₃ q := fun q hq hqr hqd =>
    ((h.heap.keepsPayload hheap₁ hq).trans (hkeep₂ q hq hqr)).trans
      (hkeep₃ q (Finset.mem_erase.2 ⟨hqr, hq⟩) hqd)
  have hmem : ∀ q ∈ live, q ≠ raw d → q ≠ d → q ∈ (live.erase (raw d)).erase d :=
    fun q hq hqr hqd => Finset.mem_erase.2 ⟨hqd, Finset.mem_erase.2 ⟨hqr, hq⟩⟩
  refine h.frame hheap howned (fun t ht => ht.1) (fun _ _ => ⟨rfl, rfl⟩) (fun t ht => ?_)
    (fun t ht => ?_) fun t ht => ⟨?_, fun x hx hx' => ?_⟩
  · have hlive := (h.pcb_live t ht.1).1
    have hne : t ≠ raw d := (h.raw_ne d hd t ht.1).symm
    exact ⟨hmem t hlive hne ht.2, hkeep t hlive hne ht.2⟩
  · have hlive := (h.stack_live t ht.1).1
    have hne : raw t ≠ raw d := fun heq => ht.2 (h.raw_inj t ht.1 d hd heq)
    have hned : raw t ≠ d := h.raw_ne t ht.1 d hd
    exact ⟨hmem _ hlive hne hned, hkeep _ hlive hne hned⟩
  · exact (h.owned.nodup.mem_erase_iff).2
      ⟨fun heq => ht.2 (h.cr3_inj t ht.1 d hd heq), (h.directory t ht.1).1⟩
  · obtain ⟨hx1, hx2⟩ := h.directory_outside ht.1 hx hx'
    rw [hout₃ x hx1, hout₂ x hx1, h₁ x hx2]

/-! ## A new task -/

/-- A task with a control block, a stack and a page directory of its own joins. -/
theorem insert (h : Resources img mem frames pcb users live out raw) {t rawT : Nat} {p : Pcb}
    (ht : t ∈ live) (hroom : pcbSize ≤ payloadSize mem t) (hraw : rawT ∈ live)
    (hstack : AlignedIn mem rawT stackSize 16 p.stackBase) (hcr3 : p.cr3 ∈ out)
    (hdir : NoUserEntries mem p.cr3) (htr : rawT ≠ t)
    (hfresh : ∀ u ∈ users, u ≠ t ∧ raw u ≠ t ∧ u ≠ rawT ∧ raw u ≠ rawT ∧ (pcb u).cr3 ≠ p.cr3) :
    Resources img mem frames (Function.update pcb t p) (Insert.insert t users) live out
      (Function.update raw t rawT) := by
  have hpcb : ∀ u ∈ users, Function.update pcb t p u = pcb u := fun u hu =>
    Function.update_of_ne (hfresh u hu).1 _ _
  have hru : ∀ u ∈ users, Function.update raw t rawT u = raw u := fun u hu =>
    Function.update_of_ne (hfresh u hu).1 _ _
  have hpt : Function.update pcb t p t = p := Function.update_self _ _ _
  have hrt : Function.update raw t rawT t = rawT := Function.update_self _ _ _
  refine ⟨h.heap, h.owned, ?_, ?_, ?_, ?_, ?_, ?_⟩
  · rintro u (rfl | hu)
    · exact ⟨ht, hroom⟩
    · exact h.pcb_live u hu
  · rintro u (rfl | hu)
    · rw [hpt, hrt]
      exact ⟨hraw, hstack⟩
    · rw [hpcb u hu, hru u hu]
      exact h.stack_live u hu
  · rintro u (rfl | hu)
    · rw [hpt]
      exact ⟨hcr3, hdir⟩
    · rw [hpcb u hu]
      exact h.directory u hu
  · rintro u (rfl | hu) v (rfl | hv)
    · rwa [hrt]
    · rw [hrt]
      exact (hfresh v hv).2.2.1.symm
    · rw [hru u hu]
      exact (hfresh u hu).2.1
    · rw [hru u hu]
      exact h.raw_ne u hu v hv
  · rintro u (rfl | hu) v (rfl | hv) heq
    · rfl
    · rw [hrt, hru v hv] at heq
      exact absurd heq.symm (hfresh v hv).2.2.2.1
    · rw [hrt, hru u hu] at heq
      exact absurd heq (hfresh u hu).2.2.2.1
    · rw [hru u hu, hru v hv] at heq
      exact h.raw_inj u hu v hv heq
  · rintro u (rfl | hu) v (rfl | hv) heq
    · rfl
    · rw [hpt, hpcb v hv] at heq
      exact absurd heq.symm (hfresh v hv).2.2.2.2
    · rw [hpt, hpcb u hu] at heq
      exact absurd heq (hfresh u hu).2.2.2.2
    · rw [hpcb u hu, hpcb v hv] at heq
      exact h.cr3_inj u hu v hv heq

end Resources

/-! ## Nothing else is owned -/

/-- The heap, its live pointers and the frame allocator before the first task. -/
structure Base where
  mem : Mem
  live : Finset Nat
  frames : Pmm.State

/-- Heap and frame allocator are those of `base` with the blocks and page directories of
the tasks `users` on top. -/
structure Conserves (base : Base) (mem : Mem) (frames : Pmm.State) (pcb : Nat → Pcb)
    (users : Set Nat) (live : Finset Nat) (out : List Nat) (raw : Nat → Nat) : Prop where
  base_live : base.live ⊆ live
  kept : ∀ q ∈ base.live, KeepsPayload base.mem mem q
  owner : ∀ p ∈ live, p ∉ base.live → ∃ t ∈ users, p = t ∨ p = raw t
  fresh : ∀ t ∈ users, t ∉ base.live ∧ raw t ∉ base.live
  balanced : Pmm.Balanced base.frames frames out
  out_owner : ∀ a ∈ out, ∃ t ∈ users, a = (pcb t).cr3

namespace Conserves

variable {img : Image} {base : Base} {mem mem' : Mem} {frames frames' : Pmm.State}
  {pcb pcb' : Nat → Pcb} {users : Set Nat} {live : Finset Nat} {out : List Nat} {raw : Nat → Nat}

theorem pcb_congr (h : Conserves base mem frames pcb users live out raw)
    (hpcb : ∀ t ∈ users, (pcb' t).cr3 = (pcb t).cr3) :
    Conserves base mem frames pcb' users live out raw := by
  refine ⟨h.base_live, h.kept, h.owner, h.fresh, h.balanced, fun a ha => ?_⟩
  obtain ⟨t, ht, rfl⟩ := h.out_owner a ha
  exact ⟨t, ht, (hpcb t ht).symm⟩

/-- A change of memory that keeps the blocks in use. -/
theorem mem_congr (h : Conserves base mem frames pcb users live out raw)
    (hkeep : ∀ q ∈ live, KeepsPayload mem mem' q) :
    Conserves base mem' frames pcb users live out raw :=
  ⟨h.base_live, fun q hq => (h.kept q hq).trans (hkeep q (h.base_live hq)), h.owner, h.fresh,
    h.balanced, h.out_owner⟩

/-- The release of a task takes its blocks and its page directory away. -/
theorem release (h : Conserves base mem frames pcb users live out raw) {d : Nat} (hd : d ∈ users)
    (hres : Resources img mem frames pcb users live out raw)
    (hkeep : ∀ q ∈ live, q ≠ raw d → q ≠ d → KeepsPayload mem mem' q)
    (hfree : Pmm.freeBlock frames (pcb d).cr3 1 = .ret frames') :
    Conserves base mem' frames' pcb (users \ {d}) ((live.erase (raw d)).erase d)
      (out.erase (pcb d).cr3) raw := by
  obtain ⟨hdb, hrb⟩ := h.fresh d hd
  have hne : ∀ q ∈ base.live, q ≠ raw d ∧ q ≠ d := fun q hq =>
    ⟨fun heq => hrb (heq ▸ hq), fun heq => hdb (heq ▸ hq)⟩
  have hcr3 := (hres.directory d hd).1
  have hframe : ∃ f, (pcb d).cr3 = f * 4096 ∧ f < Pmm.totalFrames := by
    obtain ⟨f, hf, -, hlt, -⟩ := hres.owned.frame _ hcr3
    exact ⟨f, hf, hlt⟩
  refine ⟨fun q hq => ?_, fun q hq => ?_, fun p hp hpb => ?_, fun t ht => h.fresh t ht.1,
    h.balanced.free hres.owned.nodup hcr3 hframe hfree, fun a ha => ?_⟩
  · exact Finset.mem_erase.2 ⟨(hne q hq).2, Finset.mem_erase.2 ⟨(hne q hq).1, h.base_live hq⟩⟩
  · exact (h.kept q hq).trans (hkeep q (h.base_live hq) (hne q hq).1 (hne q hq).2)
  · obtain ⟨hpd, hp⟩ := Finset.mem_erase.1 hp
    obtain ⟨hpr, hp⟩ := Finset.mem_erase.1 hp
    obtain ⟨t, ht, hcase⟩ := h.owner p hp hpb
    refine ⟨t, ⟨ht, fun htd => ?_⟩, hcase⟩
    obtain rfl : t = d := htd
    exact hcase.elim hpd hpr
  · obtain ⟨hne', ha⟩ := (hres.owned.nodup.mem_erase_iff).1 ha
    obtain ⟨t, ht, rfl⟩ := h.out_owner a ha
    exact ⟨t, ⟨ht, fun htd => hne' (by rw [Set.mem_singleton_iff.1 htd])⟩, rfl⟩

/-- A new task brings its blocks and its page directory. -/
theorem insert (h : Conserves base mem frames pcb users live out raw) {t rawT a : Nat} {p : Pcb}
    (htl : t ∉ live) (hrl : rawT ∉ live) (ha : a ≠ 0)
    (hold : ∀ u ∈ users, u ≠ t) (hkeep : ∀ q ∈ live, KeepsPayload mem mem' q) (hpc : p.cr3 = a)
    (hal : Pmm.allocFrame frames = (frames', a)) :
    Conserves base mem' frames' (Function.update pcb t p) (Insert.insert t users)
      (Insert.insert rawT (Insert.insert t live)) (a :: out) (Function.update raw t rawT) := by
  have hraw : ∀ u ∈ users, Function.update raw t rawT u = raw u := fun u hu =>
    Function.update_of_ne (hold u hu) _ _
  have hself : Function.update raw t rawT t = rawT := Function.update_self _ _ _
  have hbal := h.balanced.alloc hal
  rw [if_neg ha] at hbal
  refine ⟨fun q hq => ?_, fun q hq => (h.kept q hq).trans (hkeep q (h.base_live hq)),
    fun q hq hqb => ?_, ?_, hbal, fun b hb => ?_⟩
  · exact Finset.mem_insert_of_mem (Finset.mem_insert_of_mem (h.base_live hq))
  · rcases Finset.mem_insert.1 hq with rfl | hq
    · exact ⟨t, Set.mem_insert _ _, Or.inr hself.symm⟩
    · rcases Finset.mem_insert.1 hq with rfl | hq
      · exact ⟨q, Set.mem_insert _ _, Or.inl rfl⟩
      · obtain ⟨u, hu, hcase⟩ := h.owner q hq hqb
        rw [← hraw u hu] at hcase
        exact ⟨u, Set.mem_insert_of_mem _ hu, hcase⟩
  · rintro u (rfl | hu)
    · rw [hself]
      exact ⟨fun hb => htl (h.base_live hb), fun hb => hrl (h.base_live hb)⟩
    · rw [hraw u hu]
      exact h.fresh u hu
  · rcases List.mem_cons.1 hb with rfl | hb
    · exact ⟨t, Set.mem_insert _ _, by rw [Function.update_self, hpc]⟩
    · obtain ⟨u, hu, rfl⟩ := h.out_owner b hb
      exact ⟨u, Set.mem_insert_of_mem _ hu, by rw [Function.update_of_ne (hold u hu)]⟩

end Conserves

/-! ## The allocations of `task_create` -/

section Allocations

variable {img : Image} {mem mem' : Mem} {frames frames' : Pmm.State} {pcb : Nat → Pcb}
  {users : Set Nat} {live : Finset Nat} {out : List Nat} {raw : Nat → Nat}

/-- A fresh block of the heap leaves the tasks alone. -/
theorem Resources.heap_alloc (h : Resources img mem frames pcb users live out raw) {p : Nat}
    (hheap : Holds mem' (Insert.insert p live)) (hkeep : ∀ q ∈ live, KeepsPayload mem mem' q)
    (hout : KeepsOutside mem mem') :
    Resources img mem' frames pcb users (Insert.insert p live) out raw :=
  h.heap_congr hheap
    (fun t ht => ⟨Finset.mem_insert_of_mem (h.pcb_live t ht).1,
      Finset.mem_insert_of_mem (h.stack_live t ht).1⟩)
    (fun q hq _ => hkeep q hq) hout

/-- A change of memory that only touches a frame outside the heap and the entry of the
scratchpad. -/
theorem heap_of_frame {a : Nat} (ha : UserFrame img a)
    (hm : ∀ x, x ≠ scratchEntry img → x < a ∨ a + 4096 ≤ x → mem' x = mem x) :
    ∀ x, heapStart ≤ x → x < heapEnd → mem' x = mem x := fun x hx hx' => by
  have hs := scratchEntry_lt img
  refine hm x (by omega) ?_
  by_contra hin
  have := ha.heap_outside (x := x) (by omega) (by omega)
  omega

/-- A fresh page directory leaves the tasks alone. -/
theorem Resources.frame_alloc (h : Resources img mem frames pcb users live out raw) {a : Nat}
    (ha : UserFrame img a) (hfresh : a ∉ out) (hown : Pmm.Owned img.kernelEnd frames' (a :: out))
    (hm : ∀ x, x ≠ scratchEntry img → x < a ∨ a + 4096 ≤ x → mem' x = mem x) :
    Resources img mem' frames' pcb users live (a :: out) raw := by
  have hheap := heap_of_frame ha hm
  refine h.frame (h.heap.congr hheap) hown (fun _ ht => ht) (fun _ _ => ⟨rfl, rfl⟩)
    (fun t ht => ⟨(h.pcb_live t ht).1, h.heap.keepsPayload hheap (h.pcb_live t ht).1⟩)
    (fun t ht => ⟨(h.stack_live t ht).1, h.heap.keepsPayload hheap (h.stack_live t ht).1⟩)
    (fun t ht => ⟨List.mem_cons_of_mem _ (h.directory t ht).1, fun x hx hx' => ?_⟩)
  have hout := (h.directory t ht).1
  have hne : (pcb t).cr3 ≠ a := fun heq => hfresh (heq ▸ hout)
  obtain ⟨g, hg⟩ := (userFrame_of_owned h.owned hout).aligned
  obtain ⟨f, hf⟩ := ha.aligned
  exact hm x (h.directory_outside ht hx hx').2 (by omega)

end Allocations

/-! ## The initial stack -/

theorem push_outside (ws : List Nat) (m : Mem) {sp : Nat} (hlo : 4 * ws.length ≤ sp)
    (hhi : sp < 2 ^ 32) :
    (ws.foldl push (m, sp)).2 = sp - 4 * ws.length ∧
      ∀ x, x < sp - 4 * ws.length ∨ sp ≤ x → (ws.foldl push (m, sp)).1 x = m x := by
  induction ws generalizing m sp with
  | nil => exact ⟨rfl, fun x _ => rfl⟩
  | cons w ws ih =>
      rw [List.length_cons] at hlo ⊢
      have hsp : wrap32 (sp + 2 ^ 32 - 4) = sp - 4 := by unfold wrap32; omega
      have hlo' : 4 * ws.length ≤ sp - 4 := by omega
      obtain ⟨h1, h2⟩ := ih (Heap.store m (sp - 4) w) hlo' (by omega)
      rw [List.foldl_cons, push, hsp]
      refine ⟨by rw [h1]; omega, fun x hx => ?_⟩
      rw [h2 x (by omega)]
      exact Function.update_of_ne (by omega) _ _

/-- Words pushed inside the payload of `raw` keep the heap and every other payload. -/
theorem push_holds (ws : List Nat) {m : Mem} {live : Finset Nat} {raw sp : Nat}
    (h : Holds m live) (hraw : raw ∈ live) (hlo : raw + 4 * ws.length ≤ sp)
    (hhi : sp ≤ raw + payloadSize m raw) :
    Holds (ws.foldl push (m, sp)).1 live ∧
      (∀ q ∈ live, q ≠ raw → KeepsPayload m (ws.foldl push (m, sp)).1 q) ∧
      payloadSize (ws.foldl push (m, sp)).1 raw = payloadSize m raw := by
  induction ws generalizing m sp with
  | nil => exact ⟨h, fun q _ _ => KeepsPayload.refl m q, rfl⟩
  | cons w ws ih =>
      rw [List.length_cons] at hlo
      obtain ⟨-, -, hin⟩ := h.inside hraw
      have hend : heapEnd = 0x800000 := rfl
      have hsp : wrap32 (sp + 2 ^ 32 - 4) = sp - 4 := by unfold wrap32; omega
      obtain ⟨hw, hkeep, hsize⟩ := h.write w hraw (a := sp - 4) (by omega) (by omega)
      have hlo' : raw + 4 * ws.length ≤ sp - 4 := by omega
      obtain ⟨h1, h2, h3⟩ := ih hw hlo' (by omega)
      rw [List.foldl_cons, push, hsp]
      exact ⟨h1, fun q hq hne => (hkeep q hq hne).trans (h2 q hq hne), h3.trans hsize⟩

/-- **The resources of a new task.**  After the three allocations of `task_create`
and the set-up of the initial stack, the new task owns its blocks and its page
directory, and the other blocks are as they were. -/
theorem Resources.start {img : Image} {mem : Mem} {frames : Pmm.State} {pcb : Nat → Pcb}
    {users : Set Nat} {live : Finset Nat} {out : List Nat} {raw : Nat → Nat} {t rawT a stack : Nat}
    (h : Resources img mem frames pcb users (Insert.insert rawT (Insert.insert t live))
      (a :: out) raw)
    (htl : t ∉ live) (hrl : rawT ∉ Insert.insert t live) (hal : a ∉ out)
    (hold : ∀ u ∈ users, u ∈ live ∧ raw u ∈ live ∧ (pcb u).cr3 ∈ out)
    (hroom : pcbSize ≤ payloadSize mem t) (hstack : AlignedIn mem rawT stackSize 16 stack)
    (hdir : NoUserEntries mem a) (entryPoint : Nat) {p : Pcb} (hpb : p.stackBase = stack)
    (hpc : p.cr3 = a) :
    let mem' := ((initialStack img entryPoint).foldl push (mem, wrap32 (stack + stackSize))).1
    Resources img mem' frames (Function.update pcb t p) (Insert.insert t users)
      (Insert.insert rawT (Insert.insert t live)) (a :: out) (Function.update raw t rawT) ∧
      ∀ q ∈ live, KeepsPayload mem mem' q := by
  intro mem'
  have hrin : rawT ∈ Insert.insert rawT (Insert.insert t live) := Finset.mem_insert_self _ _
  have htin : t ∈ Insert.insert rawT (Insert.insert t live) := by simp
  obtain ⟨-, hlo, hhi⟩ := h.heap.inside hrin
  have hend : heapEnd = 0x800000 := rfl
  have hsize : stackSize = 4096 := rfl
  obtain ⟨ha1, ha2, ha3, ha4⟩ := hstack
  have hsp : wrap32 (stack + stackSize) = stack + stackSize := Nat.mod_eq_of_lt (by omega)
  have hlen : (initialStack img entryPoint).length = 12 := rfl
  have hfit : rawT + 4 * (initialStack img entryPoint).length ≤ stack + stackSize := by omega
  have hfit' : 4 * (initialStack img entryPoint).length ≤ stack + stackSize := by omega
  obtain ⟨hheap, hkeep, hpay⟩ := push_holds (initialStack img entryPoint) h.heap hrin hfit
    (by omega)
  obtain ⟨-, hother⟩ := push_outside (initialStack img entryPoint) mem hfit' (by omega)
  have hmem' : mem' = ((initialStack img entryPoint).foldl push (mem, stack + stackSize)).1 := by
    rw [← hsp]
  rw [← hmem'] at hheap hkeep hpay hother
  have hout : KeepsOutside mem mem' := fun x hx => hother x (by omega)
  have htr : t ≠ rawT := fun htr => hrl (by simp [htr])
  -- none of the words pushed is the hidden pointer in front of the stack
  have hblock : ∀ q ∈ Insert.insert rawT (Insert.insert t live), q ≠ rawT →
      KeepsPayload mem mem' q := hkeep
  have hres : Resources img mem' frames pcb users (Insert.insert rawT (Insert.insert t live))
      (a :: out) raw := by
    refine h.frame hheap h.owned (fun _ hu => hu) (fun _ _ => ⟨rfl, rfl⟩) (fun u hu => ?_)
      (fun u hu => ?_) (fun u hu => ⟨(h.directory u hu).1, fun x hx hx' =>
        hout x (h.directory_outside hu hx hx').1⟩)
    · refine ⟨(h.pcb_live u hu).1, hblock u (h.pcb_live u hu).1 fun hur => hrl ?_⟩
      rw [← hur]
      exact Finset.mem_insert_of_mem (hold u hu).1
    · refine ⟨(h.stack_live u hu).1, hblock _ (h.stack_live u hu).1 fun hur => hrl ?_⟩
      rw [← hur]
      exact Finset.mem_insert_of_mem (hold u hu).2.1
  have hframe : UserFrame img a := userFrame_of_owned h.owned (by simp)
  refine ⟨hres.insert htin ?_ hrin ⟨?_, ?_, ?_, ?_⟩ (by simp [hpc]) ?_ htr.symm fun u hu => ?_,
    fun q hq => hblock q (by simp [hq]) fun hqr => hrl (by simp [← hqr, hq])⟩
  · rw [(hblock t htin htr).1]
    exact hroom
  · rw [hpb]
    exact ha1
  · rw [hpb, hpay]
    exact ha2
  · rw [hpb]
    exact ha3
  · rw [hpb, hother _ (by omega)]
    exact ha4
  · rw [hpc]
    exact Resources.noUserEntries_congr hdir fun x hx hx' => hout x (hframe.heap_outside hx hx')
  · obtain ⟨h1, h2, h3⟩ := hold u hu
    have hrl' : rawT ∉ live := fun hmem => hrl (Finset.mem_insert_of_mem hmem)
    refine ⟨fun he => htl (he ▸ h1), fun he => htl (he ▸ h2), fun he => hrl' (he ▸ h1),
      fun he => hrl' (he ▸ h2), fun he => hal ?_⟩
    rw [← hpc, ← he]
    exact h3

end BenmoshOS.Task
