import BenmoshOS.Task.Invariant

/-!
# The scheduler: what holds after every run

`Reaches img map k created ended` says that the kernel `k` is reached from
`task_init` by some sequence of `task_create`, `task_yield`, `task_exit` and
`task_kill`, on the machine with the firmware map `map`.  `created` are the tasks
made on the way, and `ended` are the tasks that ended themselves: the current task
of each `task_exit`, and of each `task_kill` whose search finds the current task.

* `scheduler_run_invariant` — the three lists, the task states, the pids and the
  task counter fit together after every run, and no operation panics;
* `reaper_spares_current` — the reaper keeps its hands off the current task exactly
  in the runs in which no task has ended itself.
-/

namespace BenmoshOS.Task

open Heap (Holds AlignedIn payloadSize)
open Exec Klib Vmm

/-- The states reached from `task_init`. -/
inductive Reaches (img : Image) (map : List Pmm.MemorymapEntry) :
    Kernel → List Nat → List Nat → Prop
  | init (mem : Heap.Mem) (pcb : Nat → Pcb) (links : Links Node) :
      Reaches img map (taskInit img (booted img map mem pcb links)) [] []
  | create {k k' : Kernel} {created ended : List Nat} {fuel entryPoint t : Nat} :
      Reaches img map k created ended → taskCreate img fuel k entryPoint = .ret (k', t) →
      Reaches img map k' (if t = 0 then created else t :: created) ended
  | yield {k k' : Kernel} {created ended : List Nat} {fuel savedEsp : Nat} {sw : Option Switch} :
      Reaches img map k created ended → taskYield img fuel k savedEsp = .ret (k', sw) →
      Reaches img map k' created ended
  | exit {k k' : Kernel} {created ended : List Nat} {fuel savedEsp : Nat} {sw : Switch} :
      Reaches img map k created ended → taskExit img fuel k savedEsp = .ret (k', sw) →
      Reaches img map k' created (k.currentTask :: ended)
  | kill {k k' : Kernel} {created ended : List Nat} {fuel pid savedEsp : Nat} {r : Int} :
      Reaches img map k created ended →
      findTask fuel k pid ≠ .ret (some k.currentTask) ∨ pid ≤ 1 →
      taskKill img fuel k pid savedEsp = .ret (k', r) → Reaches img map k' created ended
  | killSelf {k k' : Kernel} {created ended : List Nat} {fuel pid savedEsp : Nat} {r : Int} :
      Reaches img map k created ended →
      findTask fuel k pid = .ret (some k.currentTask) → 1 < pid →
      taskKill img fuel k pid savedEsp = .ret (k', r) →
      Reaches img map k' created (k.currentTask :: ended)

/-- The kernel after `task_init`, on a heap and a frame allocator that may be in use. -/
def started (img : Image) (mem : Heap.Mem) (frames : Pmm.State) (pcb : Nat → Pcb)
    (links : Links Node) : Kernel :=
  taskInit img
    { mem := mem
      frames := frames
      pcb := pcb
      links := listInit (listInit (listInit links .readyList) .allTasksList) .deadList
      currentTask := 0
      taskCount := 0
      nextPid := 1
      esp0 := 0
      released := [] }

/-- Nothing has been created yet. -/
theorem inv_started {img : Image} {mem : Heap.Mem} {live : Finset Nat} {frames : Pmm.State}
    (hheap : Holds mem live) (hown : Pmm.Owned img.kernelEnd frames []) (pcb : Nat → Pcb)
    (links : Links Node) :
    Inv img ⟨mem, live, frames⟩ (started img mem frames pcb links) 0 [img.kernelTask] [] []
      [img.kernelTask] := by
  have hlinked := linked_listInit links
  refine ⟨(hlinked.init_nodes (by simp) (by simp) (by simp)).add_all (by simp), by simp, ?_,
    by simp, by simp, by simp, by simp, ?_, rfl, ⟨?_, fun _ => 1, ?_, by simp⟩, live, [], id, ?_⟩
  · simp [started, taskInit]
  · simp [started, taskInit]
  · simp only [started, taskInit]
  · simp [started, taskInit, wrap32]
  · have hnone : ∀ t ∈ {t | t ∈ [img.kernelTask] ∧ t ≠ img.kernelTask}, False := fun t ht =>
      ht.2 (by simpa using ht.1)
    refine ⟨⟨hheap, hown, ?_, ?_, ?_, ?_, ?_, ?_⟩, ⟨Finset.Subset.refl _,
      fun q _ => Heap.KeepsPayload.refl _ q, fun p hp hpb => absurd hp hpb,
      fun t ht => (hnone t ht).elim, Pmm.Balanced.refl _, by simp⟩⟩
    all_goals
      intro t ht
      exact (hnone t ht).elim

/-- What is known of a reached state: the invariant, where every task is that was
created, and which releases were those of the current task. -/
structure Reached (img : Image) (base : Base) (k : Kernel) (created ended : List Nat)
    (ready dead all : List Nat) : Prop where
  inv : Inv img base k created.length [k.currentTask] ready dead all
  history : (all ++ k.released.map Prod.fst).Perm (img.kernelTask :: created)
  released_current : (∃ r ∈ k.released, r.1 = r.2) ↔ ended ≠ []

theorem Inv.current_notMem_dead {img : Image} {base : Base} {k : Kernel} {n : Nat}
    {ready dead all : List Nat} (h : Inv img base k n [k.currentTask] ready dead all) : k.currentTask ∉ dead := fun hd => by
  have hnd := h.nodup
  simp [hd] at hnd

/-- The history after a step that releases the tasks `gone`. -/
theorem history_release {k k' : Kernel} {created gone all all' : List Nat} {kernelTask cur : Nat}
    (h : (all ++ k.released.map Prod.fst).Perm (kernelTask :: created))
    (hperm : (all' ++ gone).Perm all)
    (hrel : k'.released = (gone.map fun d => (d, cur)).reverse ++ k.released) :
    (all' ++ k'.released.map Prod.fst).Perm (kernelTask :: created) := by
  refine List.Perm.trans ?_ h
  rw [hrel, List.map_append, List.map_reverse, List.map_map, ← List.append_assoc]
  refine List.Perm.append_right _ (List.Perm.trans (List.Perm.append_left _ ?_) hperm)
  have hid : (Prod.fst ∘ fun d : Nat => (d, cur)) = id := rfl
  rw [hid, List.map_id]
  exact List.reverse_perm gone

/-- A release of other tasks does not add one of the current task. -/
theorem released_other {k k' : Kernel} {gone : List Nat} {cur : Nat} (hcur : cur ∉ gone)
    (hrel : k'.released = (gone.map fun d => (d, cur)).reverse ++ k.released) :
    (∃ r ∈ k'.released, r.1 = r.2) ↔ ∃ r ∈ k.released, r.1 = r.2 := by
  constructor
  · rintro ⟨r, hr, heq⟩
    rw [hrel, List.mem_append, List.mem_reverse, List.mem_map] at hr
    rcases hr with ⟨d, hd, rfl⟩ | hr
    · obtain rfl : d = cur := heq
      exact absurd hd hcur
    · exact ⟨r, hr, heq⟩
  · rintro ⟨r, hr, heq⟩
    exact ⟨r, by rw [hrel]; simp [hr], heq⟩

/-- **Every run keeps the invariant.** -/
theorem Reaches.reached {img : Image} {map : List Pmm.MemorymapEntry} {k : Kernel}
    {created ended : List Nat} (h : Reaches img map k created ended) :
    ∃ base ready dead all, Reached img base k created ended ready dead all := by
  induction h with
  | init mem pcb links =>
      have hle : img.kernelEnd < 2 ^ 32 := by
        have := img.kernelEnd_le
        omega
      have hown : Pmm.Owned img.kernelEnd (Pmm.pmmInit map img.kernelEnd) [] :=
        (Pmm.Reaches.init hle).owned
      exact ⟨_, [], [], [img.kernelTask], inv_started ⟨_, Heap.layout_heapInit mem⟩ hown pcb links, by simp [taskInit, booted], by simp [taskInit, booted]⟩
  | @create k k' created ended fuel entryPoint t _ hret ih =>
      obtain ⟨base, ready, dead, all, hinv, hhist, hrc⟩ := ih
      obtain ⟨hcase, hcur, hrel, -⟩ := (taskCreate_safe hinv fuel entryPoint).of_ret hret
      simp only at hcase hcur hrel
      rcases hcase with ⟨rfl, hinv', -⟩ | ⟨ht, hinv'⟩
      · rw [if_pos rfl]
        exact ⟨base, ready, dead, all, by rwa [hcur], by rwa [hrel], by rwa [hrel]⟩
      · rw [if_neg ht]
        refine ⟨base, ready ++ [t], dead, all ++ [t], by rwa [hcur, List.length_cons], ?_, by rwa [hrel]⟩
        rw [hrel, List.append_assoc, List.singleton_append]
        exact List.perm_middle.trans ((hhist.cons t).trans (List.Perm.swap _ _ _))
  | @yield k k' created ended fuel savedEsp sw _ hret ih =>
      obtain ⟨base, ready, dead, all, hinv, hhist, hrc⟩ := ih
      obtain ⟨⟨ready', all', hinv', hperm⟩, hrel, -⟩ :=
        (taskYield_safe hinv (Or.inl rfl) fuel savedEsp).of_ret hret
      refine ⟨base, ready', [], all', hinv', history_release hhist hperm hrel, ?_⟩
      rw [released_other hinv.current_notMem_dead hrel]
      exact hrc
  | @exit k k' created ended fuel savedEsp sw _ hret ih =>
      obtain ⟨base, ready, dead, all, hinv, hhist, hrc⟩ := ih
      obtain ⟨-, ⟨ready', all', hinv', hperm⟩, hrel⟩ :=
        (taskExit_safe hinv fuel savedEsp).of_ret hret
      refine ⟨base, ready', [], all', hinv', history_release hhist hperm hrel, ?_⟩
      exact ⟨fun _ => by simp, fun _ => ⟨(k.currentTask, k.currentTask),
        by simp only at hrel; rw [hrel]; simp, rfl⟩⟩
  | @kill k k' created ended fuel pid savedEsp r _ hother hret ih =>
      obtain ⟨base, ready, dead, all, hinv, hhist, hrc⟩ := ih
      obtain ⟨ready', dead', all', hinv', hcase⟩ :=
        (taskKill_safe hinv fuel pid savedEsp).of_ret hret
      rcases hcase with ⟨-, rfl, -, hrel⟩ | ⟨⟨hself, hpid⟩, -⟩
      · simp only at hrel
        exact ⟨base, ready', dead', all', hinv', by rwa [hrel], by rwa [hrel]⟩
      · rcases hother with hother | hother
        · exact absurd hself hother
        · omega
  | @killSelf k k' created ended fuel pid savedEsp r _ hself hpid hret ih =>
      obtain ⟨base, ready, dead, all, hinv, hhist, hrc⟩ := ih
      obtain ⟨ready', dead', all', hinv', hcase⟩ :=
        (taskKill_safe hinv fuel pid savedEsp).of_ret hret
      rcases hcase with ⟨hother, -⟩ | ⟨-, hperm, hrel⟩
      · rcases hother with hother | hother
        · exact absurd hself hother
        · omega
      · refine ⟨base, ready', dead', all', hinv', history_release hhist hperm hrel, ?_⟩
        exact ⟨fun _ => by simp, fun _ => ⟨(k.currentTask, k.currentTask),
          by simp only at hrel; rw [hrel]; simp, rfl⟩⟩

/-! ## The lists, the states and the pids -/

/-- **The scheduler's queues after any run.**  `all_tasks_list` holds every task that
was created and not yet released, and the kernel's own, each once, and `task_count`
is its length; the pids differ as long as there were fewer than `2 ^ 32` creations;
exactly the current task is running, and it is on neither of the other lists;
`ready_list` holds exactly the ready tasks and `dead_list` exactly the dead ones, each
once; the kernel's own task is not dead.  No operation panics on the next step. -/
theorem scheduler_run_invariant {img : Image} {map : List Pmm.MemorymapEntry} {k : Kernel}
    {created ended : List Nat} (h : Reaches img map k created ended) :
    (∃ ready dead all : List Nat,
      Ring k.links .allTasksList (all.map .allList) ∧
      Ring k.links .readyList (ready.map .list) ∧ Ring k.links .deadList (dead.map .list) ∧
      all.Nodup ∧ (all ++ k.released.map Prod.fst).Perm (img.kernelTask :: created) ∧
      k.taskCount = all.length ∧
      (created.length < 2 ^ 32 → ∀ t ∈ all, ∀ u ∈ all, (k.pcb t).pid = (k.pcb u).pid → t = u) ∧
      k.currentTask ∈ all ∧
      (∀ t ∈ all, (k.pcb t).state = .running ↔ t = k.currentTask) ∧
      k.currentTask ∉ ready ∧ k.currentTask ∉ dead ∧
      ready.Nodup ∧ (∀ t, t ∈ ready ↔ t ∈ all ∧ (k.pcb t).state = .ready) ∧
      dead.Nodup ∧ (∀ t, t ∈ dead ↔ t ∈ all ∧ (k.pcb t).state = .dead) ∧
      img.kernelTask ∈ all ∧ img.kernelTask ∉ dead) ∧
    (∀ fuel entryPoint p, taskCreate img fuel k entryPoint ≠ .panic p) ∧
    (∀ fuel savedEsp p, taskYield img fuel k savedEsp ≠ .panic p) ∧
    (∀ fuel savedEsp p, taskExit img fuel k savedEsp ≠ .panic p) ∧
    ∀ fuel pid savedEsp p, taskKill img fuel k pid savedEsp ≠ .panic p := by
  obtain ⟨base, ready, dead, all, hinv, hhist, -⟩ := h.reached
  have hnd := hinv.nodup
  simp only [List.singleton_append, List.nodup_cons, List.mem_append, not_or] at hnd
  refine ⟨⟨ready, dead, all, hinv.linked.allRing, hinv.linked.readyRing, hinv.linked.deadRing,
    hinv.linked.nodup_all, hhist, hinv.count, fun hn t ht u hu hpid => ?_, hinv.mem_all.2 (by simp),
    fun t ht => by rw [hinv.state_running_iff ht]; simp, hnd.1.1, hnd.1.2,
    hinv.linked.nodup_ready, fun t => ?_, hinv.linked.nodup_dead, fun t => ?_, hinv.kernel_mem,
    hinv.kernel_alive⟩, fun fuel entryPoint p => (taskCreate_safe hinv fuel entryPoint).ne_panic p,
    fun fuel savedEsp p => (taskYield_safe hinv (Or.inl rfl) fuel savedEsp).ne_panic p,
    fun fuel savedEsp p => (taskExit_safe hinv fuel savedEsp).ne_panic p,
    fun fuel pid savedEsp p => (taskKill_safe hinv fuel pid savedEsp).ne_panic p⟩
  · -- fewer than `2 ^ 32` creations: the numbers of the tasks are not cut
    obtain ⟨-, birth, hb1, hb2⟩ := hinv.numbered
    obtain ⟨h1, h1', h1p⟩ := hb1 t ht
    obtain ⟨h2, h2', h2p⟩ := hb1 u hu
    rw [h1p, h2p] at hpid
    unfold wrap32 at hpid
    exact hb2 t ht u hu (by omega)
  · constructor
    · exact fun hr => ⟨hinv.mem_all.2 (Or.inr (Or.inl hr)), hinv.ready_state t hr⟩
    · rintro ⟨ht, hs⟩
      rcases hinv.mem_all.1 ht with hr | hr | hr
      · simp [(hinv.run_state t hr).2] at hs
      · exact hr
      · simp [hinv.dead_state t hr] at hs
  · constructor
    · exact fun hd => ⟨hinv.mem_all.2 (Or.inr (Or.inr hd)), hinv.dead_state t hd⟩
    · rintro ⟨ht, hs⟩
      rcases hinv.mem_all.1 ht with hr | hr | hr
      · simp [(hinv.run_state t hr).2] at hs
      · simp [hinv.ready_state t hr] at hs
      · exact hr

/-! ## A small machine

The machine with a single usable frame has room for one task: the setting of the runs
below. -/

/-- The kernel after `task_init` on that machine, all memory being zero. -/
def smallKernel : Kernel :=
  taskInit smallImage (booted smallImage oneFrame (fun _ => 0)
    (fun _ => ⟨0, 0, 0, .ready, 0, 0, 0⟩) fun _ => ⟨.null, .null⟩)

theorem reaches_smallKernel : Reaches smallImage oneFrame smallKernel [] [] :=
  Reaches.init _ _ _

/-- The heap after the control block of the first task. -/
def heapAfterPcb : Heap.Mem := Heap.takeBlock (Heap.heapInit fun _ => 0) 0x400000 44

/-- The heap after its stack. -/
def heapAfterStack : Heap.Mem :=
  Heap.store (Heap.takeBlock heapAfterPcb 0x400034 4116) 0x40003c 0x40003c

theorem kmalloc_first : Heap.kmalloc 3 (Heap.heapInit fun _ => 0) pcbSize =
    .ret (heapAfterPcb, 0x400008) := rfl

theorem kmallocAligned_second : Heap.kmallocAligned 3 heapAfterPcb stackSize 16 =
    .ret (heapAfterStack, 0x400040) := rfl

/-- The path of `task_create` on which all three allocations succeed. -/
theorem taskCreate_of_allocations {img : Image} {fuel entryPoint t stack pdir : Nat} {k : Kernel}
    {mem₁ mem₂ mem₃ : Heap.Mem} {frames : Pmm.State}
    (h₁ : Heap.kmalloc fuel k.mem pcbSize = .ret (mem₁, t)) (ht : t ≠ 0)
    (h₂ : Heap.kmallocAligned fuel mem₁ stackSize 16 = .ret (mem₂, stack)) (hs : stack ≠ 0)
    (h₃ : createAddressSpace img mem₂ k.frames = (mem₃, frames, pdir)) (hp : pdir ≠ 0) :
    taskCreate img fuel k entryPoint =
      .ret (startTask img { k with mem := mem₃, frames := frames } t stack pdir entryPoint, t) := by
  simp only [taskCreate, h₁, ret_bind, if_neg ht, h₂, if_neg hs, h₃, if_neg hp, pure_eq]

/-- The first creation succeeds. -/
theorem create_first : ∃ mem frames pdir, taskCreate smallImage 3 smallKernel 0x9000 =
    .ret (startTask smallImage { smallKernel with mem := mem, frames := frames } 0x400008 0x400040
      pdir 0x9000, 0x400008) := by
  have hm : smallKernel.mem = Heap.heapInit fun _ => 0 := by
    simp only [smallKernel, taskInit, booted]
  have hf : smallKernel.frames = Pmm.pmmInit oneFrame 0x30000 := by
    simp only [smallKernel, taskInit, booted, smallImage]
  rcases hc : createAddressSpace smallImage heapAfterStack smallKernel.frames with
    ⟨mem, frames, pdir⟩
  have hpdir : pdir ≠ 0 := by
    rw [createAddressSpace, hf] at hc
    rcases hal : Pmm.allocFrame (Pmm.pmmInit oneFrame 0x30000) with ⟨s, a⟩
    have ha := allocFrame_oneFrame
    rw [hal] at hc ha
    simp only at hc ha
    rw [if_neg ha] at hc
    simp only [Prod.mk.injEq] at hc
    rw [← hc.2.2]
    exact ha
  exact ⟨mem, frames, pdir, taskCreate_of_allocations (by rw [hm]; exact kmalloc_first)
    (by norm_num) kmallocAligned_second (by norm_num) hc hpdir⟩

/-- The first switch goes to the new task. -/
theorem yield_first (mem : Heap.Mem) (frames : Pmm.State) (pdir savedEsp : Nat) : ∃ k sw,
    taskYield smallImage 1 (startTask smallImage
      { smallKernel with mem := mem, frames := frames } 0x400008 0x400040 pdir 0x9000) savedEsp =
        .ret (k, some sw) ∧ k.currentTask = 0x400008 := ⟨_, _, rfl, rfl⟩

/-- A task has been created and entered: it is running and on no queue, and the kernel's own task
waits. -/
theorem scheduler_run_invariant_yield : ∃ k created, Reaches smallImage oneFrame k created [] ∧
    k.currentTask = 0x400008 ∧ ∃ ready all : List Nat, k.taskCount = all.length ∧
      0x400008 ∈ all ∧ smallImage.kernelTask ∈ all ∧ 0x400008 ∉ ready ∧
      (k.pcb 0x400008).state = .running ∧ (k.pcb smallImage.kernelTask).state ≠ .running ∧
      Ring k.links .readyList (ready.map .list) := by
  obtain ⟨mem, frames, pdir, hcreate⟩ := create_first
  obtain ⟨k, sw, hyield, hcur⟩ := yield_first mem frames pdir 0
  have hrun := (reaches_smallKernel.create hcreate).yield hyield
  obtain ⟨⟨ready, dead, all, -, hready, -, -, -, hcount, -, hmem, hrunning, hnot, -, -, -, -, -,
    hkernel, -⟩, -⟩ := scheduler_run_invariant hrun
  rw [hcur] at hmem hnot
  refine ⟨k, _, hrun, hcur, ready, all, hcount, hmem, hkernel, hnot, (hrunning _ hmem).2 hcur.symm,
    fun hstate => ?_, hready⟩
  have heq := ((hrunning _ hkernel).1 hstate).trans hcur
  exact absurd heq (by decide)

/-! ## The reaper and the current task -/

/-- The control block, the stack and the page directory of the current task are
allocated, unless it is the kernel's own task, whose are part of the image. -/
def CurrentAllocated (img : Image) (k : Kernel) : Prop :=
  k.currentTask ≠ img.kernelTask → ∃ live raw, Holds k.mem live ∧
    k.currentTask ∈ live ∧ pcbSize ≤ payloadSize k.mem k.currentTask ∧
    raw ∈ live ∧ AlignedIn k.mem raw stackSize 16 (k.pcb k.currentTask).stackBase ∧
    Pmm.Used k.frames ((k.pcb k.currentTask).cr3 / 4096)

theorem Inv.currentAllocated {img : Image} {base : Base} {k : Kernel} {n : Nat}
    {ready dead all : List Nat} (h : Inv img base k n [k.currentTask] ready dead all) :
    CurrentAllocated img k := fun hk => by
  obtain ⟨live, out, raw, hres, -⟩ := h.resources
  have hu : k.currentTask ∈ {t | t ∈ all ∧ t ≠ img.kernelTask} :=
    ⟨h.mem_all.2 (by simp), hk⟩
  obtain ⟨h1, h2⟩ := hres.pcb_live _ hu
  obtain ⟨h3, h4⟩ := hres.stack_live _ hu
  obtain ⟨f, hf, -, -, hused, -⟩ := hres.owned.frame _ (hres.directory _ hu).1
  refine ⟨live, raw k.currentTask, hres.heap, h1, h2, h3, h4, ?_⟩
  rw [hf, Nat.mul_div_cancel _ (by norm_num)]
  exact hused

/-- **When the reaper spares the current task.**  In every run, no released task was
the current one at that moment exactly when no task has ended itself: neither a
`task_exit`, nor a `task_kill` that found the current task.  Between two operations,
and behind the reaper inside `task_yield`, the resources of the current task are
allocated. -/
theorem reaper_spares_current {img : Image} {map : List Pmm.MemorymapEntry} {k : Kernel}
    {created ended : List Nat} (h : Reaches img map k created ended) :
    ((∀ r ∈ k.released, r.1 ≠ r.2) ↔ ended = []) ∧ CurrentAllocated img k ∧
      ∀ fuel k', reapDeadTasks img fuel k = .ret k' → CurrentAllocated img k' := by
  obtain ⟨base, ready, dead, all, hinv, -, hrc⟩ := h.reached
  refine ⟨?_, hinv.currentAllocated, fun fuel k' hret => ?_⟩
  · rw [← not_iff_not, ← ne_eq ended, ← hrc]
    simp
  · obtain ⟨⟨all', hinv'⟩, -, hcur, -⟩ := (reapDeadTasks_safe hinv fuel).of_ret hret
    rw [← hcur] at hinv'
    exact hinv'.currentAllocated

/-- A run in which a task has been created and entered, and none has ended itself. -/
theorem reaper_spares_current_yield : ∃ k created, Reaches smallImage oneFrame k created [] ∧
    k.currentTask = 0x400008 ∧ ∀ r ∈ k.released, r.1 ≠ r.2 := by
  obtain ⟨mem, frames, pdir, hcreate⟩ := create_first
  obtain ⟨k, sw, hyield, hcur⟩ := yield_first mem frames pdir 0
  have hrun := (reaches_smallKernel.create hcreate).yield hyield
  exact ⟨k, _, hrun, hcur, (reaper_spares_current hrun).1.2 rfl⟩

/-- A task is created and entered, and exits: the reaper that runs inside its own
`task_yield` frees the control block, the stack and the page directory it is running
on. -/
theorem reaper_frees_current : ∃ k created ended, Reaches smallImage oneFrame k created ended ∧
    ∃ r ∈ k.released, r.1 = r.2 := by
  obtain ⟨mem, frames, pdir, hcreate⟩ := create_first
  obtain ⟨k, sw, hyield, hcur⟩ := yield_first mem frames pdir 0
  have hrun := (reaches_smallKernel.create hcreate).yield hyield
  obtain ⟨base, ready, dead, all, hinv, -⟩ := hrun.reached
  have hne : k.currentTask ≠ smallImage.kernelTask := by
    rw [hcur]
    decide
  obtain ⟨⟨k', sw'⟩, hexit, -⟩ :=
    (taskExit_safe hinv (Heap.maxBlocks + 3) 0).returns ⟨by unfold Enough; omega, hne⟩
  have hrun' := hrun.exit hexit
  obtain ⟨-, -, -, -, -, -, hrc⟩ := hrun'.reached
  exact ⟨k', _, _, hrun', hrc.2 (by simp)⟩

end BenmoshOS.Task
