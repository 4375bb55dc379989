import BenmoshOS.Task.Basic

/-!
# The scheduler's three lists

`Linked links ready dead all` says that the intrusive links of the tasks form the
three circular lists of `task.c`: `ready_list` and `dead_list` through the `list`
nodes, `all_tasks_list` through the `all_list` nodes.  No task is on `ready_list`
and on `dead_list`, so each of the list operations of the scheduler changes one of
the three and leaves the others alone.
-/

namespace BenmoshOS.Task

open Klib

/-- The three lists and their members. -/
structure Linked (links : Links Node) (ready dead all : List Nat) : Prop where
  readyRing : Ring links .readyList (ready.map .list)
  deadRing : Ring links .deadList (dead.map .list)
  allRing : Ring links .allTasksList (all.map .allList)
  disjoint : ∀ t ∈ ready, t ∉ dead

namespace Linked

variable {links : Links Node} {ready dead all u v : List Nat} {t : Nat}

theorem nodup_ready (h : Linked links ready dead all) : ready.Nodup :=
  List.Nodup.of_map _ (List.nodup_cons.1 h.readyRing.nodup).2

theorem nodup_dead (h : Linked links ready dead all) : dead.Nodup :=
  List.Nodup.of_map _ (List.nodup_cons.1 h.deadRing.nodup).2

theorem nodup_all (h : Linked links ready dead all) : all.Nodup :=
  List.Nodup.of_map _ (List.nodup_cons.1 h.allRing.nodup).2

/-- Taking a task off `ready_list`. -/
theorem del_ready (h : Linked links (u ++ t :: v) dead all) :
    ∃ links', listDel .null links (.list t) = .ret links' ∧ Linked links' (u ++ v) dead all := by
  have hring := h.readyRing
  rw [List.map_append, List.map_cons] at hring
  obtain ⟨links', hret, hring', hframe⟩ := listDel_ring .null hring
  refine ⟨links', hret, ?_, ?_, ?_, fun s hs => h.disjoint s ?_⟩
  · rw [List.map_append]
    exact hring'
  · refine h.deadRing.congr fun a ha => hframe a fun hmem => ?_
    simp only [List.mem_cons, List.mem_map, List.mem_append] at ha hmem
    rcases ha with rfl | ⟨s, hs, rfl⟩
    · simp at hmem
    · exact h.disjoint s (by simpa [or_assoc] using hmem) hs
  · refine h.allRing.congr fun a ha => hframe a fun hmem => ?_
    simp only [List.mem_cons, List.mem_map, List.mem_append] at ha hmem
    rcases ha with rfl | ⟨s, hs, rfl⟩ <;> simp at hmem
  · rcases List.mem_append.1 hs with hs | hs <;> simp [hs]

/-- Taking the first task off `dead_list`. -/
theorem del_dead (h : Linked links ready (t :: dead) all) :
    ∃ links', listDel .null links (.list t) = .ret links' ∧ Linked links' ready dead all := by
  obtain ⟨links', hret, hring', hframe⟩ := listDel_ring (u := []) .null h.deadRing
  refine ⟨links', hret, ?_, hring', ?_, fun s hs hsd => h.disjoint s hs (by simp [hsd])⟩
  · refine h.readyRing.congr fun a ha => hframe a fun hmem => ?_
    simp only [List.mem_cons, List.mem_map, List.nil_append] at ha hmem
    rcases ha with rfl | ⟨s, hs, rfl⟩
    · simp at hmem
    · exact h.disjoint s hs (by simpa using hmem)
  · refine h.allRing.congr fun a ha => hframe a fun hmem => ?_
    simp only [List.mem_cons, List.mem_map, List.nil_append] at ha hmem
    rcases ha with rfl | ⟨s, hs, rfl⟩ <;> simp at hmem

/-- Taking a task off `all_tasks_list`. -/
theorem del_all (h : Linked links ready dead (u ++ t :: v)) :
    ∃ links', listDel .null links (.allList t) = .ret links' ∧
      Linked links' ready dead (u ++ v) := by
  have hring := h.allRing
  rw [List.map_append, List.map_cons] at hring
  obtain ⟨links', hret, hring', hframe⟩ := listDel_ring .null hring
  refine ⟨links', hret, ?_, ?_, ?_, h.disjoint⟩
  · refine h.readyRing.congr fun a ha => hframe a fun hmem => ?_
    simp only [List.mem_cons, List.mem_map, List.mem_append] at ha hmem
    rcases ha with rfl | ⟨s, hs, rfl⟩ <;> simp at hmem
  · refine h.deadRing.congr fun a ha => hframe a fun hmem => ?_
    simp only [List.mem_cons, List.mem_map, List.mem_append] at ha hmem
    rcases ha with rfl | ⟨s, hs, rfl⟩ <;> simp at hmem
  · rw [List.map_append]
    exact hring'

/-- Queueing a task that is on neither list at the end of `ready_list`. -/
theorem add_ready (h : Linked links ready dead all) (hr : t ∉ ready) (hd : t ∉ dead) :
    Linked (listAddTail links (.list t) .readyList) (ready ++ [t]) dead all := by
  have hframe : ∀ a, a ∉ Node.readyList :: ready.map .list → a ≠ .list t →
      listAddTail links (.list t) .readyList a = links a := fun a ha hat =>
    listAddTail_apply_of_notMem h.readyRing ha hat
  refine ⟨?_, ?_, ?_, fun s hs => ?_⟩
  · rw [List.map_append]
    exact listAddTail_ring h.readyRing (by simp [hr])
  · refine h.deadRing.congr fun a ha => hframe a (fun hmem => ?_) fun hat => ?_
    · simp only [List.mem_cons, List.mem_map] at ha hmem
      rcases ha with rfl | ⟨s, hs, rfl⟩
      · simp at hmem
      · exact h.disjoint s (by simpa using hmem) hs
    · simp [hat, hd] at ha
  · refine h.allRing.congr fun a ha => hframe a (fun hmem => ?_) fun hat => ?_
    · simp only [List.mem_cons, List.mem_map] at ha hmem
      rcases ha with rfl | ⟨s, hs, rfl⟩ <;> simp at hmem
    · simp [hat] at ha
  · rcases List.mem_append.1 hs with hs | hs
    · exact h.disjoint s hs
    · obtain rfl : s = t := by simpa using hs
      exact hd

/-- Queueing a task that is on neither list at the end of `dead_list`. -/
theorem add_dead (h : Linked links ready dead all) (hr : t ∉ ready) (hd : t ∉ dead) :
    Linked (listAddTail links (.list t) .deadList) ready (dead ++ [t]) all := by
  have hframe : ∀ a, a ∉ Node.deadList :: dead.map .list → a ≠ .list t →
      listAddTail links (.list t) .deadList a = links a := fun a ha hat =>
    listAddTail_apply_of_notMem h.deadRing ha hat
  refine ⟨?_, ?_, ?_, fun s hs hsd => ?_⟩
  · refine h.readyRing.congr fun a ha => hframe a (fun hmem => ?_) fun hat => ?_
    · simp only [List.mem_cons, List.mem_map] at ha hmem
      rcases ha with rfl | ⟨s, hs, rfl⟩
      · simp at hmem
      · exact h.disjoint s hs (by simpa using hmem)
    · simp [hat, hr] at ha
  · rw [List.map_append]
    exact listAddTail_ring h.deadRing (by simp [hd])
  · refine h.allRing.congr fun a ha => hframe a (fun hmem => ?_) fun hat => ?_
    · simp only [List.mem_cons, List.mem_map] at ha hmem
      rcases ha with rfl | ⟨s, hs, rfl⟩ <;> simp at hmem
    · simp [hat] at ha
  · rcases List.mem_append.1 hsd with hsd | hsd
    · exact h.disjoint s hs hsd
    · obtain rfl : s = t := by simpa using hsd
      exact hr hs

/-- Adding a new task to `all_tasks_list`. -/
theorem add_all (h : Linked links ready dead all) (ha : t ∉ all) :
    Linked (listAddTail links (.allList t) .allTasksList) ready dead (all ++ [t]) := by
  have hframe : ∀ a, a ∉ Node.allTasksList :: all.map .allList → a ≠ .allList t →
      listAddTail links (.allList t) .allTasksList a = links a := fun a ha hat =>
    listAddTail_apply_of_notMem h.allRing ha hat
  refine ⟨?_, ?_, ?_, h.disjoint⟩
  · refine h.readyRing.congr fun a ha => hframe a (fun hmem => ?_) fun hat => ?_
    · simp only [List.mem_cons, List.mem_map] at ha hmem
      rcases ha with rfl | ⟨s, hs, rfl⟩ <;> simp at hmem
    · simp [hat] at ha
  · refine h.deadRing.congr fun a ha => hframe a (fun hmem => ?_) fun hat => ?_
    · simp only [List.mem_cons, List.mem_map] at ha hmem
      rcases ha with rfl | ⟨s, hs, rfl⟩ <;> simp at hmem
    · simp [hat] at ha
  · rw [List.map_append]
    exact listAddTail_ring h.allRing (by simp [ha])

/-- `list_init` of the nodes of a task that is on no list. -/
theorem init_nodes (h : Linked links ready dead all) (hr : t ∉ ready) (hd : t ∉ dead)
    (ha : t ∉ all) : Linked (listInit (listInit links (.list t)) (.allList t)) ready dead all := by
  have hframe : ∀ a, a ≠ .list t → a ≠ .allList t →
      listInit (listInit links (.list t)) (.allList t) a = links a := fun a h1 h2 => by
    rw [listInit_apply_of_ne h2, listInit_apply_of_ne h1]
  refine ⟨h.readyRing.congr fun a hmem => ?_, h.deadRing.congr fun a hmem => ?_,
    h.allRing.congr fun a hmem => ?_, h.disjoint⟩
  · exact hframe a (fun hat => by simp [hat, hr] at hmem) (fun hat => by simp [hat] at hmem)
  · exact hframe a (fun hat => by simp [hat, hd] at hmem) (fun hat => by simp [hat] at hmem)
  · exact hframe a (fun hat => by simp [hat] at hmem) (fun hat => by simp [hat, ha] at hmem)

end Linked

/-- The three empty lists. -/
theorem linked_listInit (links : Links Node) :
    Linked (listInit (listInit (listInit links .readyList) .allTasksList) .deadList) [] [] [] := by
  refine ⟨?_, listInit_ring _ _, ?_, by simp⟩
  · refine (listInit_ring links Node.readyList).congr fun a ha => ?_
    obtain rfl : a = .readyList := by simpa using ha
    rw [listInit_apply_of_ne (by simp), listInit_apply_of_ne (by simp)]
  · refine (listInit_ring (listInit links .readyList) Node.allTasksList).congr fun a ha => ?_
    obtain rfl : a = .allTasksList := by simpa using ha
    rw [listInit_apply_of_ne (by simp)]

end BenmoshOS.Task
