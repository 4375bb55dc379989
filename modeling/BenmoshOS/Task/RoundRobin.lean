import Mathlib.Data.List.Rotate
import BenmoshOS.Task.Runs

/-!
# The scheduler: round robin

The running task is not on `ready_list`.  It goes to the end of the list when it yields,
and the first task of the list becomes the running one: with the running task in front, the
queue is rotated by one (`yield_rotates`).  So after as many yields as there are tasks the
queue is what it was.
-/

namespace BenmoshOS.Task

open Exec
open Klib

/-- The running task and behind it the tasks of `ready_list`, in their order.  There are no
dead tasks. -/
structure Scheduled (k : Kernel) (queue all : List Nat) : Prop where
  current : queue.head? = some k.currentTask
  linked : Linked k.links queue.tail [] all
  running : (k.pcb k.currentTask).state = .running
  nodup : queue.Nodup

/-- What a task does from the moment it yields to the next yield: `esp` is saved for it, and
the task switched to leaves the memory and the frame allocator in any state. -/
structure Turn where
  savedEsp : Nat
  mem : Heap.Mem
  frames : Pmm.State

/-- Consecutive yields, each in the task that the one before switched to: the state after
them, and the tasks that were switched to. -/
def yields (img : Image) (fuel : Nat) : Kernel → List Turn → Exec (Kernel × List Nat)
  | k, [] => return (k, [])
  | k, turn :: turns => do
      let (k, _) ← taskYield img fuel k turn.savedEsp
      let (k', visited) ← yields img fuel { k with mem := turn.mem, frames := turn.frames } turns
      return (k', k.currentTask :: visited)

/-- Between two yields of the kernel, and without dead tasks, the scheduler is in such a
state. -/
theorem Inv.scheduled {img : Image} {base : Base} {k : Kernel} {n : Nat} {ready all : List Nat}
    (h : Inv img base k n [k.currentTask] ready [] all) :
    Scheduled k (k.currentTask :: ready) all :=
  ⟨rfl, h.linked, (h.run_state _ List.mem_cons_self).2, by simpa using h.nodup⟩

/-! ## One yield -/

section Yield

variable {img : Image} {fuel : Nat} {k : Kernel} {queue all : List Nat}

/-- Without dead tasks there is nothing to reap. -/
theorem reapDeadTasks_empty {ready : List Nat} (h : Linked k.links ready [] all)
    (hfuel : 1 ≤ fuel) : reapDeadTasks img fuel k = .ret k := by
  obtain ⟨fuel, rfl⟩ : ∃ n, fuel = n + 1 := ⟨fuel - 1, by omega⟩
  have hnext : (k.links .deadList).next = .deadList := by
    simpa using h.deadRing.next_eq
  unfold reapDeadTasks
  rw [hnext]
  apply loop_leave
  rw [reapBody]
  exact if_pos rfl

@[simp] theorem ticks_setState (pcb : Nat → Pcb) (task : Nat) (state : TaskState) (t : Nat) :
    (setState pcb task state t).ticks = (pcb t).ticks := by
  by_cases h : t = task
  · simp [setState, h]
  · simp [setState, h]

@[simp] theorem ticks_setEsp (pcb : Nat → Pcb) (task esp t : Nat) :
    (setEsp pcb task esp t).ticks = (pcb t).ticks := by
  by_cases h : t = task
  · simp [setEsp, h]
  · simp [setEsp, h]

theorem ticks_tick (pcb : Nat → Pcb) (task t : Nat) :
    (tick pcb task t).ticks = if t = task then wrap32 ((pcb t).ticks + 1) else (pcb t).ticks := by
  by_cases h : t = task
  · simp [tick, h]
  · simp [tick, h]

@[simp] theorem state_tick (pcb : Nat → Pcb) (task t : Nat) :
    (tick pcb task t).state = (pcb t).state := by
  by_cases h : t = task
  · simp [tick, h]
  · simp [tick, h]

@[simp] theorem state_setEsp (pcb : Nat → Pcb) (task esp t : Nat) :
    (setEsp pcb task esp t).state = (pcb t).state := by
  by_cases h : t = task
  · simp [setEsp, h]
  · simp [setEsp, h]

/-- **One yield** makes the first ready task the running one and rotates the queue. -/
theorem yield_rotates {a b : Nat} {rest : List Nat} (h : Scheduled k (a :: b :: rest) all)
    (hfuel : 1 ≤ fuel) (savedEsp : Nat) :
    ∃ k' sw, taskYield img fuel k savedEsp = .ret (k', some sw) ∧ k'.currentTask = b ∧
      Scheduled k' (b :: (rest ++ [a])) all ∧
      ∀ t, (k'.pcb t).ticks =
        if t = b then wrap32 ((k.pcb t).ticks + 1) else (k.pcb t).ticks := by
  obtain rfl : a = k.currentTask := by simpa using h.current
  have hready : Linked k.links (b :: rest) [] all := h.linked
  have hnot : k.currentTask ∉ b :: rest := (List.nodup_cons.1 h.nodup).1
  -- the running task is queued at the end, and the first task is taken off
  have hqueued : Linked (listAddTail k.links (.list k.currentTask) .readyList)
      ([] ++ b :: (rest ++ [k.currentTask])) [] all := hready.add_ready hnot List.not_mem_nil
  obtain ⟨links, hdel, hlinks⟩ : ∃ links', listDel .null _ (.list b) = .ret links' ∧
      Linked links' (rest ++ [k.currentTask]) [] all := hqueued.del_ready
  have hfirst : ((listAddTail k.links (.list k.currentTask) .readyList) .readyList).next =
      .list b := first_of_ring hqueued.readyRing
  have hnonempty : listEmpty k.links .readyList ≠ true := by
    rw [Ne, listEmpty_iff hready.readyRing]
    simp
  have hnodup : (b :: (rest ++ [k.currentTask])).Nodup := by
    have hperm : (k.currentTask :: b :: rest).Perm ((b :: rest) ++ [k.currentTask]) :=
      (List.perm_append_singleton _ _).symm
    exact hperm.nodup_iff.1 h.nodup
  have hyield : taskYield img fuel k savedEsp =
      (switchToNext k savedEsp >>= fun p => pure (p.1, some p.2)) := by
    rw [taskYield, reapDeadTasks_empty hready hfuel, ret_bind, if_neg hnonempty]
  have hswitch : ∃ esp0 sw, switchToNext k savedEsp = .ret ({ k with
      pcb := setEsp (tick (setState (setState k.pcb k.currentTask .ready) b .running) b)
        k.currentTask savedEsp
      links := links
      currentTask := b
      esp0 := esp0 }, sw) := by
    unfold switchToNext
    simp only [if_pos h.running, hfirst, Node.entry, hdel, ret_bind, pure_eq]
    exact ⟨_, _, rfl⟩
  obtain ⟨esp0, sw, hswitch⟩ := hswitch
  refine ⟨_, sw, by rw [hyield, hswitch]; rfl, rfl, ⟨rfl, hlinks, ?_, hnodup⟩, fun t => ?_⟩
  · simp [setState]
  · simp [ticks_tick]

end Yield

/-! ## Runs of yields -/

section Run

variable {img : Image} {fuel : Nat} {all : List Nat}

/-- Memory and frames are no business of the scheduler's lists. -/
theorem Scheduled.work {k : Kernel} {queue : List Nat} (h : Scheduled k queue all)
    (mem : Heap.Mem) (frames : Pmm.State) :
    Scheduled { k with mem := mem, frames := frames } queue all :=
  ⟨h.current, h.linked, h.running, h.nodup⟩

/-- The first of a row of yields. -/
theorem yields_first {k : Kernel} {a b : Nat} {rest : List Nat}
    (h : Scheduled k (a :: b :: rest) all) (hfuel : 1 ≤ fuel) (turn : Turn) :
    ∃ k₁, Scheduled k₁ (b :: (rest ++ [a])) all ∧
      (∀ t, (k₁.pcb t).ticks =
        if t = b then wrap32 ((k.pcb t).ticks + 1) else (k.pcb t).ticks) ∧
      ∀ turns k' visited, yields img fuel k₁ turns = .ret (k', visited) →
        yields img fuel k (turn :: turns) = .ret (k', b :: visited) := by
  obtain ⟨k₁, sw, hyield, hcur, hsched, hticks⟩ :
    ∃ k₁ sw, taskYield img fuel k turn.savedEsp = .ret (k₁, some sw) ∧ _ :=
      yield_rotates h hfuel turn.savedEsp
  refine ⟨_, hsched.work turn.mem turn.frames, hticks, fun turns k' visited hrun => ?_⟩
  rw [yields, hyield, ret_bind]
  dsimp only
  rw [hrun, hcur]
  rfl

/-- **Runs.**  Yields in a row switch to the tasks behind the running one, in their order,
and each of these gets a tick. -/
theorem yields_rotate {u : List Nat} : ∀ {k : Kernel} {a : Nat} {v : List Nat}
    {turns : List Turn}, Scheduled k (a :: (u ++ v)) all → 1 ≤ fuel → turns.length = u.length →
    ∃ k', yields img fuel k turns = .ret (k', u) ∧
      Scheduled k' ((a :: (u ++ v)).rotate u.length) all ∧
      ∀ t, (k'.pcb t).ticks =
        if t ∈ u then wrap32 ((k.pcb t).ticks + 1) else (k.pcb t).ticks := by
  induction u with
  | nil =>
      intro k a v turns h _ hlen
      obtain rfl : turns = [] := List.eq_nil_of_length_eq_zero hlen
      exact ⟨k, rfl, by simpa using h, by simp⟩
  | cons b u ih =>
      intro k a v turns h hfuel hlen
      obtain ⟨turn, turns, rfl⟩ : ∃ turn rest, turns = turn :: rest :=
        List.exists_cons_of_length_eq_add_one hlen
      obtain ⟨k₁, hsched, hticks, hcons⟩ := yields_first h hfuel turn
      rw [List.append_eq, List.append_assoc] at hsched
      obtain ⟨k', hrun, hsched', hticks'⟩ := ih hsched hfuel (Nat.succ.inj hlen)
      have hb : b ∉ u := by
        have hnodup := (List.nodup_cons.1 h.nodup).2
        rw [List.cons_append, List.nodup_cons] at hnodup
        exact fun hmem => hnodup.1 (List.mem_append_left _ hmem)
      refine ⟨k', hcons turns k' u hrun, ?_, fun t => ?_⟩
      · rw [List.length_cons, List.rotate_cons_succ]
        simpa using hsched'
      · rw [hticks' t, hticks t]
        by_cases htb : t = b
        · subst htb
          simp [hb]
        · simp [htb]

/-- **Round robin.**  With at least one ready task and no dead one, as many yields as there
are tasks bring the running task and the order of `ready_list` back.  They switch to every
task once, and give each of them one tick. -/
theorem round_robin (img : Image) {k : Kernel} {ready : List Nat} (turns : List Turn)
    (hready : ready ≠ []) (h : Scheduled k (k.currentTask :: ready) all) (hfuel : 1 ≤ fuel)
    (hturns : turns.length = ready.length + 1) :
    ∃ k', yields img fuel k turns = .ret (k', ready ++ [k.currentTask]) ∧
      (ready ++ [k.currentTask]).Nodup ∧
      k'.currentTask = k.currentTask ∧ Linked k'.links ready [] all ∧
      Scheduled k' (k.currentTask :: ready) all ∧
      (∀ t ∈ k.currentTask :: ready, (k'.pcb t).ticks = wrap32 ((k.pcb t).ticks + 1)) ∧
      ∀ t, t ∉ k.currentTask :: ready → (k'.pcb t).ticks = (k.pcb t).ticks := by
  obtain ⟨b, rest, rfl⟩ := List.exists_cons_of_ne_nil hready
  obtain ⟨turn, turns, rfl⟩ : ∃ turn rest, turns = turn :: rest :=
    List.exists_cons_of_length_eq_add_one hturns
  -- the first yield, and the others from the first ready task on
  obtain ⟨k₁, hsched, hticks, hcons⟩ := yields_first h hfuel turn
  have hlen : turns.length = (rest ++ [k.currentTask]).length := by simpa using hturns
  rw [← List.append_nil (rest ++ [k.currentTask])] at hsched
  obtain ⟨k', hrun, hsched', hticks'⟩ := yields_rotate hsched hfuel hlen
  have hround : (b :: (rest ++ [k.currentTask] ++ [])).rotate (rest ++ [k.currentTask]).length =
      k.currentTask :: b :: rest := by
    rw [List.append_nil, ← List.cons_append, ← List.rotate_cons_succ, ← hlen]
    rw [List.length_cons] at hturns
    rw [hturns]
    exact List.rotate_length (k.currentTask :: b :: rest)
  rw [hround] at hsched'
  have hperm : (k.currentTask :: b :: rest).Perm (b :: rest ++ [k.currentTask]) :=
    (List.perm_append_singleton _ _).symm
  have hb : b ∉ rest ++ [k.currentTask] := (List.nodup_cons.1 (hperm.nodup_iff.1 h.nodup)).1
  refine ⟨k', hcons turns k' _ hrun, hperm.nodup_iff.1 h.nodup, ?_, hsched'.linked, hsched',
    fun t ht => ?_, fun t ht => ?_⟩
  · simpa using hsched'.current.symm
  · rw [hticks' t, hticks t]
    by_cases htb : t = b
    · subst htb
      rw [if_neg hb, if_pos rfl]
    · have hmem : t ∈ rest ++ [k.currentTask] :=
        (List.mem_cons.1 (hperm.mem_iff.1 ht)).resolve_left htb
      rw [if_pos hmem, if_neg htb]
  · rw [hperm.mem_iff, List.cons_append, List.mem_cons, not_or] at ht
    rw [hticks' t, hticks t, if_neg ht.2, if_neg ht.1]

end Run

/-- Task 1 is running, task 2 is ready. -/
def twoTasks : Kernel :=
  let links : Links Node := fun _ => ⟨.null, .null⟩
  let heads := listInit (listInit (listInit links .readyList) .allTasksList) .deadList
  { mem := fun _ => 0
    frames := Pmm.allUsed
    pcb := fun _ => { esp := 0, cr3 := 0, pid := 1, state := .running, ticks := 2 ^ 32 - 1,
                      stackBase := 0, stackTop := 0 }
    links := listAddTail heads (.list 2) .readyList
    currentTask := 1
    taskCount := 2
    nextPid := 3
    esp0 := 0
    released := [] }

theorem scheduled_twoTasks : Scheduled twoTasks [1, 2] [] :=
  ⟨rfl, (linked_listInit _).add_ready List.not_mem_nil List.not_mem_nil, rfl, by decide⟩

/-- What the two tasks do. -/
def twoTurns : List Turn := [⟨0x1000, fun _ => 0, Pmm.allUsed⟩, ⟨0x2000, fun _ => 1, Pmm.allUsed⟩]

/-- Two yields of two tasks; the tick counters wrap around. -/
theorem round_robin_twoTasks :
    ∃ k', yields smallImage 1 twoTasks twoTurns = .ret (k', [2, 1]) ∧
      k'.currentTask = 1 ∧ Linked k'.links [2] [] [] ∧ (k'.pcb 1).ticks = 0 ∧
      (k'.pcb 2).ticks = 0 := by
  obtain ⟨k', hrun, -, hcur, hlinked, -, hticks, -⟩ :=
    round_robin smallImage twoTurns (List.cons_ne_nil 2 []) scheduled_twoTasks (le_refl 1) rfl
  exact ⟨k', hrun, hcur, hlinked, hticks 1 (by decide), hticks 2 (by decide)⟩

end BenmoshOS.Task
