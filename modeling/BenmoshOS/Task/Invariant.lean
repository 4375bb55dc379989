import BenmoshOS.Task.Resources

/-!
# The scheduler: what holds between any two operations

`Inv img base k n run ready dead all` describes the kernel `k` after `n` successful
creations: the members of the three lists, the states that go with them, the pids
and the resources of the tasks, on top of those that were in use before (`base`).
`run` holds the running task, which is on neither `ready_list` nor `dead_list`; it is
empty only inside `task_exit`, between the moment the current task is put on
`dead_list` and the switch away from it.

Each operation of `task.c` is shown to be safe and to keep the invariant, and
`scheduler_run_invariant` reads off what that means after any run.
-/

namespace BenmoshOS.Task

open Heap (Mem Holds Freed KeepsPayload KeepsOutside AlignedIn payloadSize heapStart heapEnd
  kmalloc kfree kmallocAligned kfreeAligned roundUp4)
open Exec Klib Vmm

/-- The pids of the tasks after `n` successful creations: each task has its number
in the order of creation, the kernel's own task being the first, cut to 32 bits. -/
def Numbered (pcb : Nat → Pcb) (nextPid n : Nat) (all : List Nat) : Prop :=
  nextPid = wrap32 (n + 2) ∧ ∃ birth : Nat → Nat,
    (∀ t ∈ all, birth t < n + 2 ∧ 1 ≤ birth t ∧ (pcb t).pid = wrap32 (birth t)) ∧
    ∀ t ∈ all, ∀ u ∈ all, birth t = birth u → t = u

/-- The scheduler's invariant. -/
structure Inv (img : Image) (base : Base) (k : Kernel) (n : Nat) (run ready dead all : List Nat) : Prop where
  linked : Linked k.links ready dead all
  perm : all.Perm (run ++ (ready ++ dead))
  run_state : ∀ t ∈ run, t = k.currentTask ∧ (k.pcb t).state = .running
  ready_state : ∀ t ∈ ready, (k.pcb t).state = .ready
  dead_state : ∀ t ∈ dead, (k.pcb t).state = .dead
  kernel_mem : img.kernelTask ∈ all
  kernel_alive : img.kernelTask ∉ dead
  kernel_pid : (k.pcb img.kernelTask).pid = 1
  count : k.taskCount = all.length
  numbered : Numbered k.pcb k.nextPid n all
  resources : ∃ live out raw, Resources img k.mem k.frames k.pcb
      {t | t ∈ all ∧ t ≠ img.kernelTask} live out raw ∧
    Conserves base k.mem k.frames k.pcb {t | t ∈ all ∧ t ≠ img.kernelTask} live out raw

namespace Inv

variable {img : Image} {base : Base} {k : Kernel} {n : Nat} {run ready dead all : List Nat}

theorem nodup (h : Inv img base k n run ready dead all) : (run ++ (ready ++ dead)).Nodup :=
  h.perm.nodup_iff.1 h.linked.nodup_all

theorem mem_all (h : Inv img base k n run ready dead all) {t : Nat} :
    t ∈ all ↔ t ∈ run ∨ t ∈ ready ∨ t ∈ dead := by
  rw [h.perm.mem_iff, List.mem_append, List.mem_append]

/-- Every task but the kernel's own has a control block on the heap, so there are
far fewer than `2 ^ 32`. -/
theorem length_le (h : Inv img base k n run ready dead all) : all.length ≤ Heap.maxBlocks + 1 := by
  obtain ⟨live, out, raw, hres, -⟩ := h.resources
  have hsub : all.toFinset ⊆ insert img.kernelTask live := fun t ht => by
    by_cases hk : t = img.kernelTask
    · exact Finset.mem_insert.2 (Or.inl hk)
    · exact Finset.mem_insert_of_mem (hres.pcb_live t ⟨List.mem_toFinset.1 ht, hk⟩).1
  have hcard := Finset.card_le_card hsub
  rw [List.toFinset_card_of_nodup h.linked.nodup_all] at hcard
  have hins := Finset.card_insert_le img.kernelTask live
  have hlive := hres.heap.card_le
  omega

theorem length_lt (h : Inv img base k n run ready dead all) : all.length < 2 ^ 20 := by
  have hlen := h.length_le
  have hmax : Heap.maxBlocks = 2 ^ 19 := rfl
  omega

/-- The state of a task says which list it is on. -/
theorem state_running_iff (h : Inv img base k n run ready dead all) {t : Nat} (ht : t ∈ all) :
    (k.pcb t).state = .running ↔ t ∈ run := by
  rcases h.mem_all.1 ht with hr | hr | hr
  · simp [hr, (h.run_state t hr).2]
  · have hnd := h.nodup
    rw [List.nodup_append] at hnd
    simp only [h.ready_state t hr, reduceCtorEq, false_iff]
    exact fun hrun => hnd.2.2 t hrun t (by simp [hr]) rfl
  · have hnd := h.nodup
    rw [List.nodup_append] at hnd
    simp only [h.dead_state t hr, reduceCtorEq, false_iff]
    exact fun hrun => hnd.2.2 t hrun t (by simp [hr]) rfl

/-- The operations that only move tasks between the lists and change their states,
ticks and stack pointers. -/
theorem requeue (h : Inv img base k n run ready dead all) {k' : Kernel}
    {run' ready' dead' : List Nat} (hlinked : Linked k'.links ready' dead' all)
    (hperm : (run' ++ (ready' ++ dead')).Perm (run ++ (ready ++ dead)))
    (hmem : k'.mem = k.mem) (hframes : k'.frames = k.frames)
    (hcount : k'.taskCount = k.taskCount) (hnext : k'.nextPid = k.nextPid)
    (hkeep : ∀ s, (k'.pcb s).pid = (k.pcb s).pid ∧ (k'.pcb s).stackBase = (k.pcb s).stackBase ∧
      (k'.pcb s).cr3 = (k.pcb s).cr3)
    (hrun : ∀ t ∈ run', t = k'.currentTask ∧ (k'.pcb t).state = .running)
    (hready : ∀ t ∈ ready', (k'.pcb t).state = .ready)
    (hdead : ∀ t ∈ dead', (k'.pcb t).state = .dead) (halive : img.kernelTask ∉ dead') :
    Inv img base k' n run' ready' dead' all := by
  obtain ⟨live, out, raw, hres, hcons⟩ := h.resources
  obtain ⟨hn, birth, hb1, hb2⟩ := h.numbered
  refine ⟨hlinked, h.perm.trans hperm.symm, hrun, hready, hdead, h.kernel_mem, halive,
    by rw [(hkeep _).1, h.kernel_pid], by rw [hcount, h.count],
    ⟨by rw [hnext, hn], birth, fun t ht => ?_, hb2⟩, live, out, raw, ?_⟩
  · rw [(hkeep t).1]
    exact hb1 t ht
  · rw [hmem, hframes]
    exact ⟨hres.pcb_congr fun t _ => (hkeep t).2, hcons.pcb_congr fun t _ => (hkeep t).2.2⟩

end Inv

/-! ## Fields of control blocks -/

section Fields

variable (pcb : Nat → Pcb) (t s : Nat) (st : TaskState) (e : Nat)

@[simp] theorem setState_state :
    (setState pcb t st s).state = if s = t then st else (pcb s).state := by
  by_cases h : s = t
  · subst h; simp [setState]
  · simp [setState, h]

@[simp] theorem setState_other : (setState pcb t st s).pid = (pcb s).pid ∧
    (setState pcb t st s).stackBase = (pcb s).stackBase ∧
    (setState pcb t st s).cr3 = (pcb s).cr3 := by
  by_cases h : s = t
  · subst h; simp [setState]
  · simp [setState, h]

@[simp] theorem tick_other : (tick pcb t s).state = (pcb s).state ∧
    (tick pcb t s).pid = (pcb s).pid ∧ (tick pcb t s).stackBase = (pcb s).stackBase ∧
    (tick pcb t s).cr3 = (pcb s).cr3 := by
  by_cases h : s = t
  · subst h; simp [tick]
  · simp [tick, h]

@[simp] theorem setEsp_other : (setEsp pcb t e s).state = (pcb s).state ∧
    (setEsp pcb t e s).pid = (pcb s).pid ∧ (setEsp pcb t e s).stackBase = (pcb s).stackBase ∧
    (setEsp pcb t e s).cr3 = (pcb s).cr3 := by
  by_cases h : s = t
  · subst h; simp [setEsp]
  · simp [setEsp, h]

end Fields

/-! ## The reaper -/

/-- Fuel for every walk of the scheduler: over the blocks of the heap, of which each
task has at least one, and over the lists of tasks. -/
def Enough (fuel : Nat) : Prop := Heap.maxBlocks + 2 < fuel

theorem Enough.heap {fuel : Nat} (h : Enough fuel) : Heap.maxBlocks < fuel := by
  unfold Enough at h
  omega

section Reaper

variable {img : Image} {base : Base} {k : Kernel} {n : Nat} {run ready dead all : List Nat} {d : Nat}

theorem releaseAddressSpace_spec {users : Set Nat} {live : Finset Nat} {out : List Nat}
    {raw : Nat → Nat} (h : Resources img k.mem k.frames k.pcb users live out raw) (hd : d ∈ users) :
    ∃ mem frames, releaseAddressSpace img k d = .ret { k with mem := mem, frames := frames } ∧
      Pmm.freeBlock k.frames (k.pcb d).cr3 1 = .ret frames ∧
      Pmm.Owned img.kernelEnd frames (out.erase (k.pcb d).cr3) ∧
      ∀ x, x ≠ scratchEntry img → mem x = k.mem x := by
  obtain ⟨hout, hz⟩ := h.directory d hd
  obtain ⟨mem, frames, hret, hfree, hown, hframe⟩ := destroyAddressSpace_spec h.owned hout hz
  have hne : (k.pcb d).cr3 ≠ img.pageDirectory := by
    have := (userFrame_of_owned h.owned hout).notImage
    have := img.pageDirectory_le
    omega
  refine ⟨mem, frames, ?_, hfree, hown, hframe⟩
  rw [releaseAddressSpace, if_pos hne, hret]
  rfl

theorem releaseStack_safe {live : Finset Nat} {raw : Nat} (h : Holds k.mem live)
    (hraw : raw ∈ live) (hstack : AlignedIn k.mem raw stackSize 16 (k.pcb d).stackBase)
    (fuel : Nat) :
    Safe (Enough fuel) (releaseStack fuel k d)
      (fun k' => ∃ mem, k' = { k with mem := mem } ∧ Freed k.mem live raw mem) := by
  have hne : (k.pcb d).stackBase ≠ 0 := by
    have := hstack.above
    omega
  rw [releaseStack, if_pos hne]
  refine safe_bind ((Heap.kfreeAligned_safe h hraw hstack fuel).when Enough.heap) fun mem hmem => ?_
  exact ⟨mem, rfl, hmem⟩

/-- Releasing the first task of `dead_list`. -/
theorem reapTask_safe (h : Inv img base k n run ready (d :: dead) all) (fuel : Nat) :
    Safe (Enough fuel) (reapTask img fuel k d) (fun k' =>
      (∃ all', Inv img base k' n run ready dead all') ∧ k'.pcb = k.pcb ∧ k'.currentTask = k.currentTask ∧
      k'.released = (d, k.currentTask) :: k.released) := by
  have hdall : d ∈ all := h.mem_all.2 (by simp)
  have hdk : d ≠ img.kernelTask := fun hdk => h.kernel_alive (by simp [hdk])
  obtain ⟨u, v, rfl⟩ := List.append_of_mem hdall
  obtain ⟨links₁, hdel₁, hlink₁⟩ := h.linked.del_dead
  obtain ⟨links₂, hdel₂, hlink₂⟩ := hlink₁.del_all
  obtain ⟨live, out, raw, hres, hcons⟩ := h.resources
  have hduser : d ∈ {t | t ∈ u ++ d :: v ∧ t ≠ img.kernelTask} := ⟨hdall, hdk⟩
  obtain ⟨mem₁, frames₁, hrel, hfree, hown, hframe⟩ :=
    releaseAddressSpace_spec (k := { k with links := links₂ }) hres hduser
  rw [reapTask, hdel₁, ret_bind, hdel₂, ret_bind, hrel, ret_bind]
  obtain ⟨hraw, hstack⟩ := hres.stack_live d hduser
  obtain ⟨hdlive, hdroom⟩ := hres.pcb_live d hduser
  have hheap₁ : ∀ x, heapStart ≤ x → x < heapEnd → mem₁ x = k.mem x := fun x hx _ =>
    hframe x fun hxs => by
      have := scratchEntry_lt img
      omega
  have hholds₁ := hres.heap.congr hheap₁
  have hstack₁ := hstack.congr (hres.heap.keepsPayload hheap₁ hraw)
  refine safe_bind (releaseStack_safe hholds₁ hraw hstack₁ fuel) ?_
  rintro k₂ ⟨mem₂, rfl, hfreed₂⟩
  have hdr : d ≠ raw d := (hres.raw_ne d hduser d hduser).symm
  have hsize : payloadSize mem₂ d ≠ 0 := by
    rw [(hfreed₂.2.1 d hdlive hdr).1, (hres.heap.keepsPayload hheap₁ hdlive).1]
    unfold pcbSize at hdroom
    omega
  refine safe_bind ((Heap.kfree_safe hfreed₂.1 (Finset.mem_erase.2 ⟨hdr, hdlive⟩) hsize
    fuel).when Enough.heap) ?_
  intro mem₃ hfreed₃
  have hperm : (u ++ v).Perm (run ++ (ready ++ dead)) := by
    have h1 : (d :: (u ++ v)).Perm (u ++ d :: v) := List.perm_middle.symm
    have h2 : (run ++ (ready ++ d :: dead)).Perm (d :: (run ++ (ready ++ dead))) := by
      rw [← List.append_assoc, ← List.append_assoc]
      exact List.perm_middle
    exact ((h1.trans h.perm).trans h2).cons_inv
  have hkernel : img.kernelTask ∈ u ++ v := by
    have := h.kernel_mem
    simpa [hdk.symm] using this
  have hsubset : ∀ t ∈ u ++ v, t ∈ u ++ d :: v := fun t ht => by
    rcases List.mem_append.1 ht with ht | ht <;> simp [ht]
  have hlen := h.count
  have hbound := h.length_lt
  rw [List.length_append, List.length_cons] at hlen hbound
  obtain ⟨hnext, birth, hb1, hb2⟩ := h.numbered
  refine ⟨⟨u ++ v, hlink₂, hperm, h.run_state, h.ready_state, fun t ht => h.dead_state t
    (by simp [ht]), hkernel, fun hk => h.kernel_alive (by simp [hk]), h.kernel_pid, ?_,
    ⟨hnext, birth, fun t ht => hb1 t (hsubset t ht),
      fun t ht s hs => hb2 t (hsubset t ht) s (hsubset s hs)⟩, ?_⟩, rfl, rfl, rfl⟩
  · simp only [List.length_append]
    unfold wrap32
    omega
  · have hrest := hres.release hduser hown hframe hfreed₂ hfreed₃
    have hkeep : ∀ q ∈ live, q ≠ raw d → q ≠ d → KeepsPayload k.mem mem₃ q := fun q hq hqr hqd =>
      ((hres.heap.keepsPayload hheap₁ hq).trans (hfreed₂.2.1 q hq hqr)).trans
        (hfreed₃.2.1 q (Finset.mem_erase.2 ⟨hqr, hq⟩) hqd)
    have hrest' := hcons.release hduser hres hkeep hfree
    have hnd := h.linked.nodup_all
    have hduv : d ∉ u ++ v := by
      rw [List.nodup_middle, List.nodup_cons] at hnd
      exact hnd.1
    have hset : {t | t ∈ u ++ d :: v ∧ t ≠ img.kernelTask} \ {d} =
        {t | t ∈ u ++ v ∧ t ≠ img.kernelTask} := by
      ext t
      simp only [Set.mem_sdiff, Set.mem_ofPred_eq, Set.mem_singleton_iff, List.mem_append,
        List.mem_cons]
      constructor
      · rintro ⟨⟨ht, htk⟩, htd⟩
        exact ⟨by simpa [htd] using ht, htk⟩
      · rintro ⟨ht, htk⟩
        refine ⟨⟨by tauto, htk⟩, fun htd => hduv ?_⟩
        rw [← htd]
        exact List.mem_append.2 ht
    rw [hset] at hrest hrest'
    exact ⟨_, _, raw, hrest, hrest'⟩

/-- **The reaper is safe**, releases exactly the tasks on `dead_list`, in order, and
leaves it empty. -/
theorem reapDeadTasks_safe (h : Inv img base k n run ready dead all) (fuel : Nat) :
    Safe (Enough fuel) (reapDeadTasks img fuel k) (fun k' =>
      (∃ all', Inv img base k' n run ready [] all') ∧ k'.pcb = k.pcb ∧
      k'.currentTask = k.currentTask ∧
      k'.released = (dead.map fun d => (d, k.currentTask)).reverse ++ k.released) := by
  -- at the head of each round `pos` is the first node of what is left of the list
  refine safe_loop (fun j s => ∃ done left all', left.length = j ∧ dead = done ++ left ∧
    Inv img base s.1 n run ready left all' ∧ s.1.pcb = k.pcb ∧ s.1.currentTask = k.currentTask ∧
    s.1.released = (done.map fun d => (d, k.currentTask)).reverse ++ k.released ∧
    s.2.1 = (s.1.links .deadList).next ∧ s.2.2 = (s.1.links s.2.1).next) ?_ fuel dead.length _
    ⟨[], dead, all, rfl, rfl, h, rfl, rfl, rfl, rfl, rfl⟩ fun hfuel => ?_
  · rintro j ⟨k', pos, nx⟩ ⟨done, left, all', rfl, rfl, hinv, hpcb, hcur, hrel, hpos, hnx⟩
    simp only at hinv hpcb hcur hrel hpos hnx ⊢
    have hring := hinv.linked.deadRing
    cases left with
    | nil =>
        have hend : pos = .deadList := by
          rw [hpos]
          simpa using hring.next_eq
        simp only [reapBody, hend, if_true, safe_ret, Sum.elim_inr]
        exact ⟨⟨all', hinv⟩, hpcb, hcur, by simpa using hrel⟩
    | cons d left =>
        have hfirst : pos = .list d := by rw [hpos, first_of_ring hring]
        have hsecond := Ring.member_next (u := []) hring
        simp only [reapBody, hfirst, reduceCtorEq, if_false, Node.entry]
        refine safe_bind (reapTask_safe hinv fuel) ?_
        rintro k'' ⟨⟨all'', hinv''⟩, hpcb'', hcur'', hrel''⟩
        have hnext := hinv''.linked.deadRing.head_next
        rw [hsecond, Option.some.injEq] at hnext
        refine ⟨left.length, by simp, done ++ [d], left, all'', rfl, by simp, hinv'',
          hpcb''.trans hpcb, hcur''.trans hcur, ?_, ?_, rfl⟩
        · rw [hrel'', hrel, hcur]
          simp
        · rw [hnx, hfirst]
          exact hnext
  · have hlen := h.length_le
    have hsub : dead.length ≤ all.length := by
      rw [h.perm.length_eq]
      simp only [List.length_append]
      omega
    unfold Enough at hfuel
    omega

end Reaper

/-! ## The switch -/

section Switching

variable {img : Image} {base : Base} {k : Kernel} {n : Nat} {run ready dead all : List Nat}

/-- The outgoing task is the running one, or it has just been put on `dead_list`. -/
def Outgoing (k : Kernel) (run : List Nat) : Prop :=
  run = [k.currentTask] ∨ (run = [] ∧ (k.pcb k.currentTask).state = .dead)

/-- A task that is ready is made the running one. -/
theorem Inv.dispatch {t : Nat} {links : Links Node}
    (h : Inv img base k n [] (t :: ready) dead all) (hlinks : Linked links ready dead all)
    (savedEsp old esp0 : Nat) :
    Inv img base { k with
      pcb := setEsp (tick (setState k.pcb t .running) t) old savedEsp
      links := links, currentTask := t, esp0 := esp0 } n [t] ready dead all := by
  have hnd := h.nodup
  simp only [List.nil_append, List.cons_append, List.nodup_cons] at hnd
  have hother : ∀ s, s ∈ ready ∨ s ∈ dead → s ≠ t := fun s hs hst =>
    hnd.1 (by rw [← hst]; exact List.mem_append.2 hs)
  refine h.requeue hlinks (by simp) rfl rfl rfl rfl (by simp) (fun s hs => ?_) (fun s hs => ?_)
    (fun s hs => ?_) h.kernel_alive
  · obtain rfl : s = t := by simpa using hs
    simp
  · simpa [hother s (Or.inl hs)] using h.ready_state s (by simp [hs])
  · simpa [hother s (Or.inr hs)] using h.dead_state s hs

/-- The running task goes to the end of `ready_list`. -/
theorem Inv.preempt (h : Inv img base k n [k.currentTask] ready dead all) :
    Inv img base { k with
      pcb := setState k.pcb k.currentTask .ready
      links := listAddTail k.links (.list k.currentTask) .readyList } n []
        (ready ++ [k.currentTask]) dead all := by
  have hnd := h.nodup
  simp only [List.singleton_append, List.nodup_cons, List.mem_append, not_or] at hnd
  obtain ⟨⟨hr, hd⟩, -⟩ := hnd
  refine h.requeue (h.linked.add_ready hr hd) ?_ rfl rfl rfl rfl (by simp) (by simp)
    (fun s hs => ?_) (fun s hs => ?_) h.kernel_alive
  · simp only [List.singleton_append, List.nil_append, List.append_assoc]
    exact List.perm_middle
  · by_cases hsc : s = k.currentTask
    · simp [hsc]
    · simpa [hsc] using h.ready_state s (by simpa [hsc] using hs)
  · have hsc : s ≠ k.currentTask := fun hsc => hd (hsc ▸ hs)
    simpa [hsc] using h.dead_state s hs

/-- The switch to the first ready task. -/
theorem switchToNext_safe (h : Inv img base k n run ready [] all) (hout : Outgoing k run)
    (hne : ready ≠ []) (savedEsp : Nat) :
    Safe True (switchToNext k savedEsp) (fun r => (∃ ready',
      Inv img base r.1 n [r.1.currentTask] ready' [] all) ∧ r.1.released = k.released ∧
      r.2.newCr3 = (r.1.pcb r.1.currentTask).cr3) := by
  obtain ⟨t, rest, rfl⟩ := List.exists_cons_of_ne_nil hne
  -- after the preemption `ready_list` starts with `t`, and nothing is running
  obtain ⟨k₁, hk₁, ready₁, hinv₁, hrel₁⟩ : ∃ k₁, (if (k.pcb k.currentTask).state = .running then
      { k with
        pcb := setState k.pcb k.currentTask .ready
        links := listAddTail k.links (.list k.currentTask) .readyList }
      else k) = k₁ ∧ ∃ ready₁, Inv img base k₁ n [] (t :: ready₁) [] all ∧
        k₁.released = k.released := by
    rcases hout with hrun | ⟨hrun, hdead⟩
    · subst hrun
      rw [if_pos (h.run_state k.currentTask (by simp)).2]
      exact ⟨_, rfl, rest ++ [k.currentTask], h.preempt, rfl⟩
    · subst hrun
      rw [if_neg (by simp [hdead])]
      exact ⟨_, rfl, rest, h, rfl⟩
  obtain ⟨links, hdel, hlinks⟩ := Linked.del_ready (u := []) hinv₁.linked
  rw [switchToNext]
  simp only [hk₁, first_of_ring hinv₁.linked.readyRing, Node.entry, hdel, ret_bind, pure_eq,
    safe_ret]
  exact ⟨⟨ready₁, hinv₁.dispatch hlinks savedEsp k.currentTask _⟩, hrel₁, by simp⟩

/-- **`task_yield` is safe** and ends with a running task and an empty
`dead_list`.  Without a ready task the running one goes on. -/
theorem taskYield_safe (h : Inv img base k n run ready dead all) (hout : Outgoing k run)
    (fuel savedEsp : Nat) :
    Safe (Enough fuel) (taskYield img fuel k savedEsp) (fun r =>
      (∃ ready' all', Inv img base r.1 n [r.1.currentTask] ready' [] all' ∧ (all' ++ dead).Perm all) ∧
      r.1.released = (dead.map fun d => (d, k.currentTask)).reverse ++ k.released ∧
      (r.2 = none → run ≠ [] ∧ r.1.currentTask = k.currentTask ∧ r.1.pcb = k.pcb) ∧
      ∀ sw ∈ r.2, sw.newCr3 = (r.1.pcb r.1.currentTask).cr3) := by
  refine safe_bind (reapDeadTasks_safe h fuel) ?_
  rintro k₁ ⟨⟨all₁, hinv₁⟩, hpcb₁, hcur₁, hrel₁⟩
  have hperm : (all₁ ++ dead).Perm all := by
    refine (hinv₁.perm.append_right dead).trans (h.perm.trans ?_).symm
    simp
  have hout₁ : Outgoing k₁ run := by
    unfold Outgoing
    rw [hcur₁, hpcb₁]
    exact hout
  by_cases hempty : listEmpty k₁.links .readyList = true
  · have hnil : ready = [] := by simpa using (listEmpty_iff hinv₁.linked.readyRing).1 hempty
    rw [if_pos hempty]
    subst hnil
    have hrun : run = [k₁.currentTask] := by
      rcases hout₁ with hrun | ⟨hrun, -⟩
      · exact hrun
      · -- the kernel's own task is always somewhere, so something runs
        have := hinv₁.mem_all.1 hinv₁.kernel_mem
        simp [hrun] at this
    subst hrun
    exact ⟨⟨[], all₁, hinv₁, hperm⟩, hrel₁, fun _ => ⟨by simp, hcur₁, hpcb₁⟩, by simp⟩
  · have hne : ready ≠ [] := fun hnil => hempty
      ((listEmpty_iff hinv₁.linked.readyRing).2 (by simp [hnil]))
    rw [if_neg hempty]
    refine safe_bind ((switchToNext_safe hinv₁ hout₁ hne savedEsp).when fun _ => trivial) ?_
    rintro ⟨k₂, sw⟩ ⟨⟨ready₂, hinv₂⟩, hrel₂, hcr3⟩
    exact ⟨⟨ready₂, all₁, hinv₂, hperm⟩, hrel₂.trans hrel₁, by simp, by simpa using hcr3⟩

/-- The current task is put on `dead_list`. -/
theorem Inv.bury (h : Inv img base k n [k.currentTask] ready dead all)
    (hk : k.currentTask ≠ img.kernelTask) :
    Inv img base { k with
      pcb := setState k.pcb k.currentTask .dead
      links := listAddTail k.links (.list k.currentTask) .deadList } n [] ready
        (dead ++ [k.currentTask]) all := by
  have hnd := h.nodup
  simp only [List.singleton_append, List.nodup_cons, List.mem_append, not_or] at hnd
  obtain ⟨⟨hr, hd⟩, -⟩ := hnd
  refine h.requeue (h.linked.add_dead hr hd) ?_ rfl rfl rfl rfl (by simp) (by simp)
    (fun s hs => ?_) (fun s hs => ?_) (by simp [h.kernel_alive, hk.symm])
  · simp only [List.singleton_append, List.nil_append]
    rw [← List.append_assoc]
    exact List.perm_append_singleton _ _
  · have hsc : s ≠ k.currentTask := fun hsc => hr (hsc ▸ hs)
    simpa [hsc] using h.ready_state s hs
  · by_cases hsc : s = k.currentTask
    · simp [hsc]
    · simpa [hsc] using h.dead_state s (by simpa [hsc] using hs)

/-- **`task_exit` is safe.**  The reaper it runs into releases the current task
itself, behind the tasks that were dead before. -/
theorem taskExit_safe (h : Inv img base k n [k.currentTask] ready dead all) (fuel savedEsp : Nat) :
    Safe (Enough fuel ∧ k.currentTask ≠ img.kernelTask) (taskExit img fuel k savedEsp) (fun r =>
      k.currentTask ≠ img.kernelTask ∧ (∃ ready' all',
        Inv img base r.1 n [r.1.currentTask] ready' [] all' ∧
          (all' ++ (dead ++ [k.currentTask])).Perm all) ∧
      r.1.released = ((dead ++ [k.currentTask]).map fun d => (d, k.currentTask)).reverse ++
        k.released) := by
  rw [taskExit]
  by_cases hk : k.currentTask = img.kernelTask
  · rw [if_pos hk]
    exact fun hT => hT.2 hk
  rw [if_neg hk]
  refine safe_bind ((taskYield_safe (h.bury hk) (Or.inr ⟨rfl, by simp⟩) fuel savedEsp).when
    fun hT => hT.1) ?_
  rintro ⟨k₁, sw⟩ ⟨hinv, hrel, hsome, -⟩
  cases sw with
  | none => exact absurd rfl (hsome rfl).1
  | some sw => exact ⟨hk, hinv, hrel⟩

end Switching

/-! ## Killing a task -/

section Killing

variable {img : Image} {base : Base} {k : Kernel} {n : Nat} {run ready dead all : List Nat}

theorem findTask_safe (h : Inv img base k n run ready dead all) (fuel pid : Nat) :
    Safe (Enough fuel) (findTask fuel k pid) (fun r => ∀ t ∈ r, t ∈ all ∧ (k.pcb t).pid = pid ∧
      (k.pcb t).state ≠ .dead) := by
  have hring := h.linked.allRing
  -- `pos` is the first node of the part of the list that is still to be searched
  refine safe_loop (fun j pos => ∃ seen left, left.length = j ∧ all = seen ++ left ∧
    (left.map Node.allList ++ [Node.allTasksList]).head? = some pos) ?_ fuel all.length _
    ⟨[], all, rfl, rfl, hring.head_next⟩ fun hfuel => ?_
  · rintro j pos ⟨seen, left, rfl, rfl, hpos⟩
    rw [searchBody]
    cases left with
    | nil =>
        obtain rfl : Node.allTasksList = pos := by simpa using hpos
        simp
    | cons t left =>
        obtain rfl : Node.allList t = pos := by simpa using hpos
        have hentry : (Node.allList t).entry = t := rfl
        rw [if_neg (by simp), hentry]
        by_cases hfound : (k.pcb t).pid = pid ∧ (k.pcb t).state ≠ .dead
        · rw [if_pos hfound]
          simpa using hfound
        · rw [if_neg hfound]
          rw [List.map_append, List.map_cons] at hring
          exact ⟨left.length, by simp, seen ++ [t], left, rfl, by simp, hring.member_next⟩
  · have hlen := h.length_le
    unfold Enough at hfuel
    omega

/-- A ready task is moved to `dead_list`. -/
theorem killOther_safe (h : Inv img base k n [k.currentTask] ready dead all) {t : Nat} (ht : t ∈ all)
    (hne : t ≠ k.currentTask) (hdead : (k.pcb t).state ≠ .dead) (hk : t ≠ img.kernelTask) :
    Safe True (killOther k t) (fun k' => (∃ ready', Inv img base k' n [k'.currentTask] ready'
      (dead ++ [t]) all) ∧ k'.currentTask = k.currentTask ∧ k'.released = k.released) := by
  have hready : t ∈ ready := by
    rcases h.mem_all.1 ht with hr | hr | hr
    · exact absurd (by simpa using hr) hne
    · exact hr
    · exact absurd (h.dead_state t hr) hdead
  obtain ⟨u, v, rfl⟩ := List.append_of_mem hready
  obtain ⟨links, hdel, hlinks⟩ := h.linked.del_ready
  rw [killOther, hdel, ret_bind]
  have htuv : t ∉ u ++ v := by
    have hnd := h.linked.nodup_ready
    rw [List.nodup_middle, List.nodup_cons] at hnd
    exact hnd.1
  have htd : t ∉ dead := h.linked.disjoint t hready
  refine ⟨⟨u ++ v, h.requeue (hlinks.add_dead htuv htd) ?_ rfl rfl rfl rfl (by simp)
    (fun s hs => ?_) (fun s hs => ?_) (fun s hs => ?_) (by simp [h.kernel_alive, hk.symm])⟩,
    rfl, rfl⟩
  · refine List.Perm.append_left _ ?_
    have h1 : (u ++ t :: v ++ dead).Perm (t :: (u ++ v ++ dead)) := by
      simp only [List.append_assoc, List.cons_append]
      exact List.perm_middle
    have h2 : (u ++ v ++ (dead ++ [t])).Perm (t :: (u ++ v ++ dead)) := by
      rw [← List.append_assoc]
      exact List.perm_append_singleton _ _
    exact h2.trans h1.symm
  · obtain rfl : s = k.currentTask := by simpa using hs
    simpa [hne.symm] using h.run_state k.currentTask (by simp)
  · have hst : s ≠ t := fun hst => htuv (hst ▸ hs)
    have hs' : s ∈ u ++ t :: v := by
      rcases List.mem_append.1 hs with hs | hs <;> simp [hs]
    simpa [hst] using h.ready_state s hs'
  · by_cases hst : s = t
    · simp [hst]
    · simpa [hst] using h.dead_state s (by simpa [hst] using hs)

/-- **`task_kill` is safe.**  It is refused, or it moves another task to
`dead_list`, or it is the exit of the current task. -/
theorem taskKill_safe (h : Inv img base k n [k.currentTask] ready dead all) (fuel pid savedEsp : Nat) :
    Safe (Enough fuel) (taskKill img fuel k pid savedEsp) (fun r => ∃ ready' dead' all',
      Inv img base r.1 n [r.1.currentTask] ready' dead' all' ∧
      ((findTask fuel k pid ≠ .ret (some k.currentTask) ∨ pid ≤ 1) ∧ all' = all ∧
          r.1.currentTask = k.currentTask ∧ r.1.released = k.released ∨
        (findTask fuel k pid = .ret (some k.currentTask) ∧ 1 < pid) ∧
          (all' ++ (dead ++ [k.currentTask])).Perm all ∧
          r.1.released = ((dead ++ [k.currentTask]).map fun d => (d, k.currentTask)).reverse ++
            k.released)) := by
  rw [taskKill]
  by_cases hpid : pid ≤ 1
  · rw [if_pos hpid]
    exact ⟨ready, dead, all, h, Or.inl ⟨Or.inr hpid, rfl, rfl, rfl⟩⟩
  rw [if_neg hpid]
  have hfind := findTask_safe h fuel pid
  cases hf : findTask fuel k pid with
  | panic p => rw [hf] at hfind; exact hfind
  | spin => rw [hf] at hfind; exact hfind
  | ret found =>
      cases found with
      | none => exact ⟨ready, dead, all, h, Or.inl ⟨Or.inl (by simp), rfl, rfl, rfl⟩⟩
      | some t =>
          obtain ⟨ht, htpid, hstate⟩ := hfind.of_ret hf t rfl
          have hk : t ≠ img.kernelTask := fun hk => by
            rw [hk, h.kernel_pid] at htpid
            omega
          rw [ret_bind]
          simp only
          by_cases hcur : t = k.currentTask
          · rw [if_pos hcur]
            refine safe_bind ((taskExit_safe h fuel savedEsp).when fun hT => ⟨hT, hcur ▸ hk⟩) ?_
            rintro ⟨k₁, sw⟩ ⟨-, ⟨ready₁, all₁, hinv₁, hperm⟩, hrel⟩
            exact ⟨ready₁, [], all₁, hinv₁, Or.inr ⟨⟨by rw [hcur], by omega⟩, hperm, hrel⟩⟩
          · rw [if_neg hcur]
            refine safe_bind ((killOther_safe h ht hcur hstate hk).when fun _ => trivial) ?_
            rintro k₁ ⟨⟨ready₁, hinv₁⟩, hcur₁, hrel₁⟩
            exact ⟨ready₁, _, all, hinv₁, Or.inl ⟨Or.inl (by simpa using hcur), rfl, hcur₁, hrel₁⟩⟩

end Killing

/-! ## Creating a task -/

section Creating

variable {img : Image} {base : Base} {k : Kernel} {n : Nat} {run ready dead all : List Nat}

/-- What a failed creation leaves behind: at most the free space of the heap looks
different. -/
structure Unchanged (k k' : Kernel) : Prop where
  rest : k' = { k with mem := k'.mem }
  heap : Heap.SameHeap k.mem k'.mem
  outside : KeepsOutside k.mem k'.mem

/-- The unwinding of a creation: what was allocated has been freed again. -/
theorem Inv.unwind (h : Inv img base k n run ready dead all) {live : Finset Nat} {out : List Nat}
    {raw : Nat → Nat}
    (hres : Resources img k.mem k.frames k.pcb {t | t ∈ all ∧ t ≠ img.kernelTask} live out raw)
    (hcons : Conserves base k.mem k.frames k.pcb {t | t ∈ all ∧ t ≠ img.kernelTask} live out raw)
    {mem : Mem} (hheap : Holds mem live) (hkeep : ∀ q ∈ live, KeepsPayload k.mem mem q)
    (hout : KeepsOutside k.mem mem) :
    Inv img base { k with mem := mem } n run ready dead all ∧ Unchanged k { k with mem := mem } := by
  have hres' := hres.heap_congr hheap
    (fun t ht => ⟨(hres.pcb_live t ht).1, (hres.stack_live t ht).1⟩) (fun q hq _ => hkeep q hq) hout
  exact ⟨⟨h.linked, h.perm, h.run_state, h.ready_state, h.dead_state, h.kernel_mem, h.kernel_alive,
    h.kernel_pid, h.count, h.numbered, live, out, raw, hres', hcons.mem_congr hkeep⟩,
    rfl, hres.heap.sameHeap hheap hkeep, hout⟩

/-- A new task is queued, with its resources. -/
theorem Inv.start (h : Inv img base k n run ready dead all) {newTask : Nat}
    (stack newPdir entryPoint : Nat) (hnew : newTask ∉ all) {mem : Mem} {frames : Pmm.State}
    {live : Finset Nat} {out : List Nat} {raw : Nat → Nat}
    (hres : Resources img
      ((initialStack img entryPoint).foldl push (mem, wrap32 (stack + stackSize))).1 frames
      (startTask img { k with mem := mem, frames := frames } newTask stack newPdir entryPoint).pcb
      (insert newTask {t | t ∈ all ∧ t ≠ img.kernelTask}) live out raw)
    (hcons : Conserves base
      ((initialStack img entryPoint).foldl push (mem, wrap32 (stack + stackSize))).1 frames
      (startTask img { k with mem := mem, frames := frames } newTask stack newPdir entryPoint).pcb
      (insert newTask {t | t ∈ all ∧ t ≠ img.kernelTask}) live out raw) :
    Inv img base (startTask img { k with mem := mem, frames := frames } newTask stack newPdir entryPoint) (n + 1) run (ready ++ [newTask]) dead
      (all ++ [newTask]) := by
  have hin : ∀ t, t ∈ run ∨ t ∈ ready ∨ t ∈ dead → t ≠ newTask := fun t ht htn =>
    hnew (htn ▸ h.mem_all.2 ht)
  have hr : newTask ∉ ready := fun hm => hin _ (Or.inr (Or.inl hm)) rfl
  have hd : newTask ∉ dead := fun hm => hin _ (Or.inr (Or.inr hm)) rfl
  have hkn : img.kernelTask ≠ newTask := fun hk => hnew (hk ▸ h.kernel_mem)
  have hpcb : ∀ t, t ≠ newTask → (startTask img { k with mem := mem, frames := frames } newTask stack newPdir entryPoint).pcb t =
      k.pcb t := fun t ht => Function.update_of_ne ht _ _
  have hself : ((startTask img { k with mem := mem, frames := frames } newTask stack newPdir entryPoint).pcb newTask).state = .ready ∧
      ((startTask img { k with mem := mem, frames := frames } newTask stack newPdir entryPoint).pcb newTask).pid = k.nextPid := by
    simp [startTask]
  have hlinked : Linked (startTask img { k with mem := mem, frames := frames } newTask stack newPdir entryPoint).links
      (ready ++ [newTask]) dead (all ++ [newTask]) :=
    ((h.linked.init_nodes hr hd hnew).add_ready hr hd).add_all hnew
  obtain ⟨hnext, birth, hb1, hb2⟩ := h.numbered
  have hbirth : ∀ t ∈ all, Function.update birth newTask (n + 2) t = birth t := fun t ht =>
    Function.update_of_ne (fun htn : t = newTask => hnew (htn ▸ ht)) _ _
  refine ⟨hlinked, ?_, fun t ht => ?_, fun t ht => ?_, fun t ht => ?_, by simp [h.kernel_mem],
    h.kernel_alive, ?_, ?_, ⟨?_, Function.update birth newTask (n + 2), fun t ht => ?_, ?_⟩,
    live, out, raw, ?_⟩
  · have h1 : (run ++ (ready ++ [newTask] ++ dead)).Perm (newTask :: (run ++ (ready ++ dead))) := by
      simp only [List.append_assoc, List.singleton_append]
      rw [← List.append_assoc, ← List.append_assoc]
      exact List.perm_middle
    exact (List.perm_append_singleton _ _).trans ((h.perm.cons _).trans h1.symm)
  · rw [hpcb t (hin t (Or.inl ht))]
    exact h.run_state t ht
  · rcases List.mem_append.1 ht with ht | ht
    · rw [hpcb t (hin t (Or.inr (Or.inl ht)))]
      exact h.ready_state t ht
    · obtain rfl : t = newTask := by simpa using ht
      exact hself.1
  · rw [hpcb t (hin t (Or.inr (Or.inr ht)))]
    exact h.dead_state t ht
  · rw [hpcb _ hkn]
    exact h.kernel_pid
  · have hlen := h.length_lt
    have hcount : (startTask img { k with mem := mem, frames := frames } newTask stack newPdir entryPoint).taskCount =
        wrap32 (k.taskCount + 1) := rfl
    rw [hcount, h.count, List.length_append, List.length_singleton]
    unfold wrap32
    omega
  · have hnp : (startTask img { k with mem := mem, frames := frames } newTask stack newPdir entryPoint).nextPid =
        wrap32 (k.nextPid + 1) := rfl
    rw [hnp, hnext]
    unfold wrap32
    omega
  · rcases List.mem_append.1 ht with ht | ht
    · rw [hbirth t ht, hpcb t fun htn => hnew (htn ▸ ht)]
      obtain ⟨h1, h2, h3⟩ := hb1 t ht
      exact ⟨by omega, h2, h3⟩
    · obtain rfl : t = newTask := by simpa using ht
      rw [Function.update_self, hself.2, hnext]
      exact ⟨by omega, by omega, rfl⟩
  · intro t ht u hu heq
    rw [List.mem_append, List.mem_singleton] at ht hu
    rcases ht with ht | rfl
    · rcases hu with hu | rfl
      · rw [hbirth t ht, hbirth u hu] at heq
        exact hb2 t ht u hu heq
      · rw [hbirth t ht, Function.update_self] at heq
        have := (hb1 t ht).1
        omega
    · rcases hu with hu | rfl
      · rw [hbirth u hu, Function.update_self] at heq
        have := (hb1 u hu).1
        omega
      · rfl
  · have hset : {t | t ∈ all ++ [newTask] ∧ t ≠ img.kernelTask} =
        insert newTask {t | t ∈ all ∧ t ≠ img.kernelTask} := by
      ext t
      simp only [Set.mem_ofPred_eq, Set.mem_insert_iff, List.mem_append, List.mem_singleton]
      constructor
      · rintro ⟨ht | ht, htk⟩
        · exact Or.inr ⟨ht, htk⟩
        · exact Or.inl ht
      · rintro (rfl | ⟨ht, htk⟩)
        · exact ⟨Or.inr rfl, hkn.symm⟩
        · exact ⟨Or.inl ht, htk⟩
    rw [hset]
    exact ⟨hres, hcons⟩

/-- **`task_create` is safe.**  It fails and changes nothing the scheduler sees, or
there is a new task at the end of `ready_list` and of `all_tasks_list`. -/
theorem taskCreate_safe (h : Inv img base k n run ready dead all) (fuel entryPoint : Nat) :
    Safe (Enough fuel) (taskCreate img fuel k entryPoint) (fun r =>
      (r.2 = 0 ∧ Inv img base r.1 n run ready dead all ∧ Unchanged k r.1 ∨
        r.2 ≠ 0 ∧ Inv img base r.1 (n + 1) run (ready ++ [r.2]) dead (all ++ [r.2])) ∧
      r.1.currentTask = k.currentTask ∧ r.1.released = k.released ∧
      ∀ t ∈ all, r.1.pcb t = k.pcb t) := by
  obtain ⟨live, out, raw, hres, hcons⟩ := h.resources
  rw [taskCreate]
  refine safe_bind ((Heap.kmalloc_safe hres.heap pcbSize fuel).when Enough.heap) ?_
  rintro ⟨mem₁, t⟩ (⟨ht, hm⟩ | ⟨ht, hfresh, hheap₁, hroom, hkeep₁, hout₁⟩)
  · simp only at ht hm
    subst ht hm
    exact ⟨Or.inl ⟨rfl, h.unwind hres hcons hres.heap (fun q _ => KeepsPayload.refl _ q)
      (KeepsOutside.refl _)⟩, rfl, rfl, fun _ _ => rfl⟩
  simp only at ht hfresh hheap₁ hroom hkeep₁ hout₁ ⊢
  rw [if_neg ht]
  have hres₁ := hres.heap_alloc hheap₁ hkeep₁ hout₁
  have hpcb : roundUp4 pcbSize = 44 := rfl
  rw [hpcb] at hroom
  have htin : t ∈ insert t live := Finset.mem_insert_self _ _
  have hne : ∀ q ∈ live, q ≠ t := fun q hq hqt => hfresh (hqt ▸ hq)
  obtain ⟨htu, htraw⟩ := hres.notMem_of_fresh hfresh
  refine safe_bind ((Heap.kmallocAligned_safe hheap₁ (by decide) (by decide) fuel).when
    Enough.heap) ?_
  rintro ⟨mem₂, stack⟩ (⟨hs, hm⟩ | ⟨rawT, hrfresh, hs, hheap₂, hal, hkeep₂, hout₂⟩)
  · -- err_free_task
    simp only at hs hm
    subst hs hm
    refine safe_bind ((Heap.kfree_safe hheap₁ htin (by omega) fuel).when Enough.heap)
      fun mem₃ hfreed => ?_
    obtain ⟨hheap₃, hkeep₃, hout₃⟩ := hfreed
    rw [Finset.erase_insert hfresh] at hheap₃
    exact ⟨Or.inl ⟨rfl, h.unwind hres hcons hheap₃
      (fun q hq => (hkeep₁ q hq).trans (hkeep₃ q (by simp [hq]) (hne q hq))) (hout₁.trans hout₃)⟩,
      rfl, rfl, fun _ _ => rfl⟩
  simp only at hs hheap₂ hal hkeep₂ hout₂ ⊢
  rw [if_neg hs]
  have hres₂ := hres₁.heap_alloc hheap₂ hkeep₂ hout₂
  have htr : t ≠ rawT := fun htr => hrfresh (by simp [← htr])
  have hner : ∀ q ∈ live, q ≠ rawT := fun q hq hqr => hrfresh (by simp [← hqr, hq])
  have hkeep₁₂ : ∀ q ∈ live, KeepsPayload k.mem mem₂ q := fun q hq =>
    (hkeep₁ q hq).trans (hkeep₂ q (by simp [hq]))
  have hroom₂ : pcbSize ≤ payloadSize mem₂ t := by
    rw [(hkeep₂ t htin).1]
    exact hroom
  have hcreated := createAddressSpace_spec (m := mem₂) hres₂.owned
  rcases hcr : createAddressSpace img mem₂ k.frames with ⟨mem₃, frames', a⟩
  have halloc := createAddressSpace_frames hcr
  rw [hcr] at hcreated
  simp only [Created] at hcreated ⊢
  rcases hcreated with ⟨ha, hm, -⟩ | ⟨hafresh, hframe, hown, hdir, hother⟩
  · -- err_free_stack
    subst ha hm
    obtain rfl : k.frames = frames' := (Pmm.allocFrame_eq_zero halloc).symm
    rw [if_pos rfl]
    have hrin : rawT ∈ insert rawT (insert t live) := Finset.mem_insert_self _ _
    refine safe_bind ((Heap.kfreeAligned_safe hheap₂ hrin hal fuel).when Enough.heap)
      fun mem₄ hfreed₄ => ?_
    have hsize : payloadSize mem₄ t ≠ 0 := by
      rw [(hfreed₄.2.1 t (by simp) htr).1]
      unfold pcbSize at hroom₂
      omega
    refine safe_bind ((Heap.kfree_safe hfreed₄.1 (by simp [htr]) hsize fuel).when Enough.heap)
      fun mem₅ hfreed₅ => ?_
    obtain ⟨-, hkeep₄, hout₄⟩ := hfreed₄
    obtain ⟨hheap₅, hkeep₅, hout₅⟩ := hfreed₅
    rw [Finset.erase_insert hrfresh] at hheap₅ hkeep₅
    rw [Finset.erase_insert hfresh] at hheap₅
    exact ⟨Or.inl ⟨rfl, h.unwind hres hcons hheap₅
      (fun q hq => ((hkeep₁₂ q hq).trans (hkeep₄ q (by simp [hq]) (hner q hq))).trans
        (hkeep₅ q (by simp [hq]) (hne q hq)))
      (((hout₁.trans hout₂).trans hout₄).trans hout₅)⟩, rfl, rfl, fun _ _ => rfl⟩
  · have ha : a ≠ 0 := hframe.ne_zero
    rw [if_neg ha]
    have hres₃ := hres₂.frame_alloc hframe hafresh hown hother
    have hheap₃ := heap_of_frame hframe hother
    have hkern : t ≠ img.kernelTask := by
      have := (hheap₁.inside htin).2.1
      have := img.kernelTask_le
      have := img.kernelEnd_le
      have hstart : heapStart = 0x400000 := rfl
      omega
    have hnew : t ∉ all := fun hta => htu ⟨hta, hkern⟩
    have hcr3 : ((startTask img { k with mem := mem₃, frames := frames' } t stack a entryPoint).pcb
        t).cr3 = a := by simp [startTask]
    obtain ⟨hstart, hkeep₃⟩ := hres₃.start hfresh hrfresh hafresh
      (fun u hu => ⟨(hres.pcb_live u hu).1, (hres.stack_live u hu).1, (hres.directory u hu).1⟩)
      (by rw [(hres₂.heap.keepsPayload hheap₃ (by simp)).1]; exact hroom₂)
      (hal.congr (hres₂.heap.keepsPayload hheap₃ (by simp))) hdir entryPoint
      (p := (startTask img { k with mem := mem₃, frames := frames' } t stack a entryPoint).pcb t)
      (by simp [startTask]) hcr3
    have hp : Function.update k.pcb t ((startTask img { k with mem := mem₃, frames := frames' }
        t stack a entryPoint).pcb t) =
        (startTask img { k with mem := mem₃, frames := frames' } t stack a entryPoint).pcb := by
      simp [startTask]
    have hrl : rawT ∉ live := fun hr => hrfresh (Finset.mem_insert_of_mem hr)
    have hcons' := hcons.insert hfresh hrl ha (fun u hu hut => htu (hut ▸ hu))
      (fun q hq => ((hkeep₁₂ q hq).trans (hres₂.heap.keepsPayload hheap₃ (by simp [hq]))).trans
        (hkeep₃ q hq)) hcr3 halloc
    rw [hp] at hstart hcons'
    have hinv := h.start stack a entryPoint hnew hstart hcons'
    exact ⟨Or.inr ⟨ht, hinv⟩, rfl, rfl, fun u hu =>
      Function.update_of_ne (fun hut : u = t => hnew (hut ▸ hu)) _ _⟩

end Creating

end BenmoshOS.Task
