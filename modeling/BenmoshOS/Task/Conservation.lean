import BenmoshOS.Pmm.Init
import BenmoshOS.Task.Runs

/-!
# The scheduler: resources are conserved

`Runs img k₀ k` says that the kernel `k` is reached from `k₀` by some sequence of
`task_create`, `task_yield`, `task_exit` and `task_kill`, in which nothing else uses the
heap or the frame allocator.  `k₀` is any kernel after `task_init`, with whatever heap
blocks and frames are in use by then.

* `Inv.heap_eq`, `Inv.frames_eq` — the live blocks and the frames in use are those of `k₀`
  and those of the tasks.
* `task_resources_conserved` — the balance in every state of a run.
-/

namespace BenmoshOS.Task

open Heap (Mem Holds KeepsPayload AlignedIn payloadSize SameHeap)
open Exec Klib Vmm

/-- The states reached from `k₀` by the operations of `task.c`. -/
inductive Runs (img : Image) (k₀ : Kernel) : Kernel → Prop
  | start : Runs img k₀ k₀
  | create {k k' : Kernel} {fuel entryPoint t : Nat} : Runs img k₀ k →
      taskCreate img fuel k entryPoint = .ret (k', t) → Runs img k₀ k'
  | yield {k k' : Kernel} {fuel savedEsp : Nat} {sw : Option Switch} : Runs img k₀ k →
      taskYield img fuel k savedEsp = .ret (k', sw) → Runs img k₀ k'
  | exit {k k' : Kernel} {fuel savedEsp : Nat} {sw : Switch} : Runs img k₀ k →
      taskExit img fuel k savedEsp = .ret (k', sw) → Runs img k₀ k'
  | kill {k k' : Kernel} {fuel pid savedEsp : Nat} {r : Int} : Runs img k₀ k →
      taskKill img fuel k pid savedEsp = .ret (k', r) → Runs img k₀ k'

variable {img : Image} {base : Base} {k₀ k : Kernel} {n : Nat} {run ready dead all : List Nat}

/-- Every run keeps the invariant. -/
theorem Runs.inv (h : Runs img k₀ k) {ready₀ dead₀ all₀ : List Nat}
    (h₀ : Inv img base k₀ n [k₀.currentTask] ready₀ dead₀ all₀) :
    ∃ n ready dead all, Inv img base k n [k.currentTask] ready dead all := by
  induction h with
  | start => exact ⟨_, _, _, _, h₀⟩
  | @create k k' fuel entryPoint t _ hret ih =>
      obtain ⟨n, ready, dead, all, hinv⟩ := ih
      obtain ⟨hcase, hcur, -⟩ := (taskCreate_safe hinv fuel entryPoint).of_ret hret
      simp only at hcase hcur
      rw [hcur]
      rcases hcase with ⟨-, hinv', -⟩ | ⟨-, hinv'⟩
      · exact ⟨_, _, _, _, hinv'⟩
      · exact ⟨_, _, _, _, hinv'⟩
  | @yield k k' fuel savedEsp sw _ hret ih =>
      obtain ⟨n, ready, dead, all, hinv⟩ := ih
      obtain ⟨⟨ready', all', hinv', -⟩, -⟩ :=
        (taskYield_safe hinv (Or.inl rfl) fuel savedEsp).of_ret hret
      exact ⟨_, _, _, _, hinv'⟩
  | @exit k k' fuel savedEsp sw _ hret ih =>
      obtain ⟨n, ready, dead, all, hinv⟩ := ih
      obtain ⟨-, ⟨ready', all', hinv', -⟩, -⟩ := (taskExit_safe hinv fuel savedEsp).of_ret hret
      exact ⟨_, _, _, _, hinv'⟩
  | @kill k k' fuel pid savedEsp r _ hret ih =>
      obtain ⟨n, ready, dead, all, hinv⟩ := ih
      obtain ⟨ready', dead', all', hinv', -⟩ := (taskKill_safe hinv fuel pid savedEsp).of_ret hret
      exact ⟨_, _, _, _, hinv'⟩

/-! ## The balance -/

/-- The tasks of `all_tasks_list` but the kernel's own. -/
def userTasks (img : Image) (all : List Nat) : List Nat := all.erase img.kernelTask

theorem Inv.mem_userTasks (h : Inv img base k n run ready dead all) {t : Nat} :
    t ∈ userTasks img all ↔ t ∈ all ∧ t ≠ img.kernelTask := by
  rw [userTasks, h.linked.nodup_all.mem_erase_iff]
  exact and_comm

theorem Inv.nodup_userTasks (h : Inv img base k n run ready dead all) :
    (userTasks img all).Nodup := h.linked.nodup_all.erase _

/-- The blocks of the tasks: their control blocks and the blocks of their stacks. -/
def taskBlocks (tasks : List Nat) (stackBlock : Nat → Nat) : Finset Nat :=
  tasks.toFinset ∪ tasks.toFinset.image stackBlock

/-- The live blocks of the heap are those of the base and those of the tasks, two for
each. -/
theorem Inv.heap_eq (h : Inv img base k n run ready dead all) :
    ∃ stackBlock : Nat → Nat,
      Holds k.mem (base.live ∪ taskBlocks (userTasks img all) stackBlock) ∧
      (base.live ∪ taskBlocks (userTasks img all) stackBlock).card =
        base.live.card + 2 * (userTasks img all).length ∧
      (∀ t ∈ userTasks img all, pcbSize ≤ payloadSize k.mem t ∧
        AlignedIn k.mem (stackBlock t) stackSize 16 (k.pcb t).stackBase) ∧
      ∀ q ∈ base.live, KeepsPayload base.mem k.mem q := by
  obtain ⟨live, out, raw, hres, hcons⟩ := h.resources
  have hmem : ∀ {t : Nat}, t ∈ userTasks img all ↔ t ∈ {t | t ∈ all ∧ t ≠ img.kernelTask} :=
    h.mem_userTasks
  have hlive : base.live ∪ taskBlocks (userTasks img all) raw = live := by
    ext p
    simp only [taskBlocks, Finset.mem_union, List.mem_toFinset, Finset.mem_image]
    constructor
    · rintro (hp | hp | ⟨t, ht, rfl⟩)
      · exact hcons.base_live hp
      · exact (hres.pcb_live p (hmem.1 hp)).1
      · exact (hres.stack_live t (hmem.1 ht)).1
    · intro hp
      by_cases hpb : p ∈ base.live
      · exact Or.inl hpb
      · obtain ⟨t, ht, rfl | rfl⟩ := hcons.owner p hp hpb
        · exact Or.inr (Or.inl (hmem.2 ht))
        · exact Or.inr (Or.inr ⟨t, hmem.2 ht, rfl⟩)
  refine ⟨raw, by rw [hlive]; exact hres.heap, ?_, fun t ht => ?_, hcons.kept⟩
  · have htasks : (userTasks img all).toFinset.card = (userTasks img all).length :=
      List.toFinset_card_of_nodup h.nodup_userTasks
    have hstacks : ((userTasks img all).toFinset.image raw).card = (userTasks img all).length := by
      rw [Finset.card_image_of_injOn, htasks]
      intro t ht u hu heq
      exact hres.raw_inj t (hmem.1 (List.mem_toFinset.1 ht)) u (hmem.1 (List.mem_toFinset.1 hu)) heq
    have hdisj : Disjoint (userTasks img all).toFinset ((userTasks img all).toFinset.image raw) := by
      rw [Finset.disjoint_right]
      intro p hp hpt
      obtain ⟨t, ht, rfl⟩ := Finset.mem_image.1 hp
      exact hres.raw_ne t (hmem.1 (List.mem_toFinset.1 ht)) _ (hmem.1 (List.mem_toFinset.1 hpt)) rfl
    have hbase : Disjoint base.live (taskBlocks (userTasks img all) raw) := by
      rw [Finset.disjoint_right]
      intro p hp hpb
      rcases Finset.mem_union.1 hp with hp | hp
      · exact (hcons.fresh p (hmem.1 (List.mem_toFinset.1 hp))).1 hpb
      · obtain ⟨t, ht, rfl⟩ := Finset.mem_image.1 hp
        exact (hcons.fresh t (hmem.1 (List.mem_toFinset.1 ht))).2 hpb
    rw [Finset.card_union_of_disjoint hbase, taskBlocks, Finset.card_union_of_disjoint hdisj, htasks,
      hstacks]
    omega
  · exact ⟨(hres.pcb_live t (hmem.1 ht)).2, (hres.stack_live t (hmem.1 ht)).2⟩

/-- The frames in use are those of the base and one for each task. -/
theorem Inv.frames_eq (h : Inv img base k n run ready dead all) :
    ∃ out, Pmm.Balanced base.frames k.frames out ∧
      out.Perm ((userTasks img all).map fun t => (k.pcb t).cr3) ∧
      (Pmm.usedFrames k.frames).card =
        (Pmm.usedFrames base.frames).card + (userTasks img all).length := by
  obtain ⟨live, out, raw, hres, hcons⟩ := h.resources
  have hmem : ∀ {t : Nat}, t ∈ userTasks img all ↔ t ∈ {t | t ∈ all ∧ t ≠ img.kernelTask} :=
    h.mem_userTasks
  have hperm : out.Perm ((userTasks img all).map fun t => (k.pcb t).cr3) := by
    refine (List.perm_ext_iff_of_nodup hres.owned.nodup ?_).2 fun a => ?_
    · exact h.nodup_userTasks.map_on fun t ht u hu heq =>
        hres.cr3_inj t (hmem.1 ht) u (hmem.1 hu) heq
    · rw [List.mem_map]
      constructor
      · intro ha
        obtain ⟨t, ht, rfl⟩ := hcons.out_owner a ha
        exact ⟨t, hmem.2 ht, rfl⟩
      · rintro ⟨t, ht, rfl⟩
        exact (hres.directory t (hmem.1 ht)).1
  have hframe : ∀ a ∈ out, ∃ f, a = f * 4096 ∧ f < Pmm.totalFrames := by
    intro a ha
    obtain ⟨f, hf, -, hlt, -⟩ := hres.owned.frame a ha
    exact ⟨f, hf, hlt⟩
  have hlen : out.length = (userTasks img all).length := by
    rw [hperm.length_eq, List.length_map]
  exact ⟨out, hcons.balanced, hperm, hlen ▸ hcons.balanced.card_used hres.owned.nodup hframe⟩

/-- **Task resources are conserved.**  In every state of every run, as many more frames are
in use than at the start as there are tasks but the kernel's own, and the live heap blocks
are those of the start, untouched, with a control block and a stack for each of these
tasks.  A creation that fails changes nothing; and when all tasks have been released, the
frame bitmap, the free count and the heap are what they were. -/
theorem task_resources_conserved {mem : Mem} {live : Finset Nat} {frames : Pmm.State}
    {out : List Nat} {pcb : Nat → Pcb} {links : Links Node} (hheap : Holds mem live)
    (hown : Pmm.Owned img.kernelEnd frames out) (hcount : frames.freeFrameCount < 2 ^ 32)
    (h : Runs img (started img mem frames pcb links) k) :
    (∃ all : List Nat, Ring k.links .allTasksList (all.map .allList) ∧ img.kernelTask ∈ all ∧
      (Pmm.usedFrames k.frames).card =
        (Pmm.usedFrames frames).card + (userTasks img all).length ∧
      (∃ stackBlock : Nat → Nat, Holds k.mem (live ∪ taskBlocks (userTasks img all) stackBlock) ∧
        (live ∪ taskBlocks (userTasks img all) stackBlock).card =
          live.card + 2 * (userTasks img all).length ∧
        (∀ t ∈ userTasks img all, pcbSize ≤ payloadSize k.mem t ∧
          AlignedIn k.mem (stackBlock t) stackSize 16 (k.pcb t).stackBase) ∧
        ∀ q ∈ live, KeepsPayload mem k.mem q) ∧
      (userTasks img all = [] → k.frames.bitmap = frames.bitmap ∧
        k.frames.freeFrameCount = frames.freeFrameCount ∧ SameHeap mem k.mem)) ∧
    ∀ fuel entryPoint k', taskCreate img fuel k entryPoint = .ret (k', 0) → Unchanged k k' := by
  have hown₀ : Pmm.Owned img.kernelEnd frames [] := ⟨hown.protected_used, by simp, List.nodup_nil⟩
  have hstart := inv_started hheap hown₀ pcb links
  obtain ⟨n, ready, dead, all, hinv⟩ := h.inv hstart
  refine ⟨⟨all, hinv.linked.allRing, hinv.kernel_mem, ?_, hinv.heap_eq, fun hnone => ?_⟩,
    fun fuel entryPoint k' hret => ?_⟩
  · obtain ⟨-, -, -, hcard⟩ := hinv.frames_eq
    exact hcard
  · obtain ⟨out', hbal, hperm, -⟩ := hinv.frames_eq
    rw [hnone, List.map_nil, List.perm_nil] at hperm
    rw [hperm] at hbal
    obtain ⟨hbitmap, hfree⟩ := hbal.restored hcount
    obtain ⟨stackBlock, hholds, -, -, hkeep⟩ := hinv.heap_eq
    have hempty : taskBlocks (userTasks img all) stackBlock = ∅ := by
      rw [hnone]
      rfl
    rw [hempty, Finset.union_empty] at hholds
    exact ⟨hbitmap, hfree, hheap.sameHeap hholds hkeep⟩
  · obtain ⟨⟨-, -, hsame⟩ | ⟨hne, -⟩, -⟩ := (taskCreate_safe hinv fuel entryPoint).of_ret hret
    · exact hsame
    · exact absurd rfl hne

/-- The balance of the small machine with its one task. -/
theorem task_resources_conserved_create : ∃ (k : Kernel) (all : List Nat), k.taskCount = 2 ∧
    Ring k.links .allTasksList (all.map .allList) ∧
    (Pmm.usedFrames k.frames).card =
      (Pmm.usedFrames (Pmm.pmmInit oneFrame 0x30000)).card + (userTasks smallImage all).length := by
  obtain ⟨mem, frames, pdir, hcreate⟩ := create_first
  have hrun : Runs smallImage (started smallImage (Heap.heapInit fun _ => 0)
      (Pmm.pmmInit oneFrame 0x30000) (fun _ => ⟨0, 0, 0, .ready, 0, 0, 0⟩) fun _ => ⟨.null, .null⟩)
      _ := Runs.create Runs.start hcreate
  have hframes : Pmm.Reaches oneFrame 0x30000 (Pmm.pmmInit oneFrame 0x30000) [] :=
    Pmm.Reaches.init (by decide)
  obtain ⟨⟨all, hring, -, hcard, -⟩, -⟩ := task_resources_conserved
    ⟨_, Heap.layout_heapInit fun _ => 0⟩ hframes.owned hframes.count_lt hrun
  exact ⟨_, all, rfl, hring, hcard⟩

end BenmoshOS.Task
