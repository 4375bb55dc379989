import BenmoshOS.Lib.Exec
import BenmoshOS.Lib.Ring

/-!
# Intrusive lists: `klib/list.h`

The functions of `list.h` over a memory of links.  The node type stands for the
addresses of `struct list_head` objects; `null` is the null pointer that
`list_del` leaves behind in the removed node.

Each operation on a well-formed circular list is described by its effect on the
sequence of members and by what it leaves alone: the links of every node outside
the list.
-/

namespace BenmoshOS.Klib

variable {α : Type} [DecidableEq α]

/-- `node->next = target`. -/
def setNext (m : Links α) (node target : α) : Links α :=
  Function.update m node { m node with next := target }

/-- `node->prev = target`. -/
def setPrev (m : Links α) (node target : α) : Links α :=
  Function.update m node { m node with prev := target }

/-- `list_init`. -/
def listInit (m : Links α) (list : α) : Links α := setPrev (setNext m list list) list list

/-- `__list_add`. -/
def listAddBetween (m : Links α) (newNode prev next : α) : Links α :=
  let m₁ := setPrev m next newNode
  let m₂ := setNext m₁ newNode next
  let m₃ := setPrev m₂ newNode prev
  setNext m₃ prev newNode

/-- `list_add_tail`. -/
def listAddTail (m : Links α) (newNode head : α) : Links α :=
  listAddBetween m newNode (m head).prev head

/-- `list_add`. -/
def listAdd (m : Links α) (newNode head : α) : Links α :=
  listAddBetween m newNode head (m head).next

/-- The panic of the hardened check in `list_del`. -/
def listCorruption : Panic := ⟨"Kernel List Corruption: Tampered pointers in list_del!", []⟩

/-- `list_del`. -/
def listDel (null : α) (m : Links α) (entry : α) : Exec (Links α) :=
  if (m (m entry).next).prev ≠ entry ∨ (m (m entry).prev).next ≠ entry then
    .panic listCorruption
  else
    let m₁ := setNext m (m entry).prev (m entry).next
    let m₂ := setPrev m₁ (m₁ entry).next (m₁ entry).prev
    let m₃ := setNext m₂ entry null
    .ret (setPrev m₃ entry null)

/-- `list_empty`. -/
def listEmpty (m : Links α) (head : α) : Bool := (m head).next == head

/-! ## Links of single nodes -/

section Fields

variable (m : Links α) (a b v : α)

theorem setNext_next : ((setNext m a v) b).next = if b = a then v else (m b).next := by
  by_cases h : b = a
  · subst h; simp [setNext]
  · simp [setNext, h]

@[simp] theorem setNext_prev : ((setNext m a v) b).prev = (m b).prev := by
  by_cases h : b = a
  · subst h; simp [setNext]
  · simp [setNext, h]

@[simp] theorem setPrev_next : ((setPrev m a v) b).next = (m b).next := by
  by_cases h : b = a
  · subst h; simp [setPrev]
  · simp [setPrev, h]

theorem setPrev_prev : ((setPrev m a v) b).prev = if b = a then v else (m b).prev := by
  by_cases h : b = a
  · subst h; simp [setPrev]
  · simp [setPrev, h]

end Fields

omit [DecidableEq α] in
theorem link_ext {x y : Link α} (h₁ : x.next = y.next) (h₂ : x.prev = y.prev) : x = y := by
  cases x
  cases y
  simp_all

theorem listAddBetween_next (m : Links α) (n p q a : α) :
    (listAddBetween m n p q a).next =
      if a = p then n else if a = n then q else (m a).next := by
  simp only [listAddBetween, setNext_next, setPrev_next]

theorem listAddBetween_prev (m : Links α) (n p q a : α) :
    (listAddBetween m n p q a).prev =
      if a = n then p else if a = q then n else (m a).prev := by
  simp only [listAddBetween, setNext_prev, setPrev_prev]

/-! ## The operations on well-formed lists -/

section Operations

variable {m : Links α} {h n e : α} {xs u v : List α}

theorem listInit_ring (m : Links α) (h : α) : Ring (listInit m h) h [] := by
  refine ⟨by simp, ?_, ?_⟩
  · simp [listInit, setNext_next]
  · simp [listInit, setPrev_prev]

theorem listInit_apply_of_ne {a : α} (ha : a ≠ h) : listInit m h a = m a := by
  simp [listInit, setNext, setPrev, ha]

theorem listEmpty_iff (hr : Ring m h xs) : listEmpty m h = true ↔ xs = [] := by
  have hnext := hr.next_eq
  rw [listEmpty, beq_iff_eq]
  cases xs with
  | nil => simpa using hnext
  | cons x xs =>
      simp only [List.map_cons, List.cons_append, List.cons.injEq] at hnext
      have hx : x ≠ h := fun hxh => by
        have := hr.nodup
        simp [hxh] at this
      simp [hnext.1, hx]

omit [DecidableEq α] in
theorem first_of_ring {x : α} (hr : Ring m h (x :: xs)) : (m h).next = x := by
  have hnext := hr.next_eq
  simp only [List.map_cons, List.cons_append, List.cons.injEq] at hnext
  exact hnext.1

/-- `list_add_tail` appends a node that is not in the list. -/
theorem listAddTail_ring (hr : Ring m h xs) (hn : n ∉ h :: xs) :
    Ring (listAddTail m n h) h (xs ++ [n]) := by
  rw [← List.append_nil xs] at hr hn
  obtain ⟨s, p, q, t, hsp, hqt, -, hprev, -⟩ := hr.links_between
  obtain ⟨rfl, rfl⟩ : q = h ∧ t = [] := by simpa [eq_comm] using hqt
  have hpmem : p ∈ q :: xs := by rw [hsp]; simp
  have hpn : p ≠ n := fun hpn => hn (by simpa [hpn] using hpmem)
  have hqn : q ≠ n := fun hqn => hn (by simp [hqn])
  have hlast : (q :: xs).getLast? = some p := by rw [hsp]; simp
  refine hr.insertBetween hn hlast rfl ?_ ?_ ?_ ?_ (fun a hap han => ?_) (fun a haq han => ?_)
  · simp [listAddTail, hprev, listAddBetween_next]
  · simp [listAddTail, hprev, listAddBetween_next, hpn.symm]
  · simp [listAddTail, hprev, listAddBetween_prev]
  · simp [listAddTail, listAddBetween_prev, hqn]
  · simp [listAddTail, hprev, listAddBetween_next, hap, han]
  · simp [listAddTail, listAddBetween_prev, haq, han]

theorem listAddTail_apply_of_notMem (hr : Ring m h xs) {a : α} (ha : a ∉ h :: xs)
    (han : a ≠ n) : listAddTail m n h a = m a := by
  rw [← List.append_nil xs] at hr
  obtain ⟨s, p, q, t, hsp, hqt, -, hprev, -⟩ := hr.links_between
  obtain ⟨rfl, rfl⟩ : q = h ∧ t = [] := by simpa [eq_comm] using hqt
  have hap : a ≠ p := fun hap => ha (by rw [hsp, hap]; simp)
  have haq : a ≠ q := fun haq => ha (by simp [haq])
  refine link_ext ?_ ?_
  · simp [listAddTail, hprev, listAddBetween_next, hap, han]
  · simp [listAddTail, listAddBetween_prev, haq, han]

/-- `list_add` prepends a node that is not in the list. -/
theorem listAdd_ring (hr : Ring m h xs) (hn : n ∉ h :: xs) :
    Ring (listAdd m n h) h (n :: xs) := by
  obtain ⟨s, p, q, t, hsp, hqt, hnext, -⟩ := Ring.links_between (u := []) hr
  obtain ⟨rfl, rfl⟩ : s = [] ∧ p = h := by
    cases s with
    | nil => simpa [eq_comm] using hsp
    | cons a s => simp at hsp
  have hqmem : q ∈ xs ++ [p] := by rw [hqt]; simp
  have hqn : q ≠ n := fun hqn => hn (by simpa [hqn, or_comm] using hqmem)
  have hpn : p ≠ n := fun hpn => hn (by simp [hpn])
  have hhead : (xs ++ [p]).head? = some q := by rw [hqt]; rfl
  have hlast : [p].getLast? = some p := rfl
  refine Ring.insertBetween (u := []) hr hn hlast hhead ?_ ?_ ?_ ?_ (fun a hap han => ?_)
    (fun a haq han => ?_)
  · simp [listAdd, listAddBetween_next]
  · simp [listAdd, hnext, listAddBetween_next, hpn.symm]
  · simp [listAdd, listAddBetween_prev]
  · simp [listAdd, hnext, listAddBetween_prev, hqn]
  · simp [listAdd, listAddBetween_next, hap, han]
  · simp [listAdd, hnext, listAddBetween_prev, haq, han]

theorem listAdd_apply_of_notMem (hr : Ring m h xs) {a : α} (ha : a ∉ h :: xs)
    (han : a ≠ n) : listAdd m n h a = m a := by
  have hnext := List.mem_of_mem_head? hr.head_next
  have hah : a ≠ h := fun hah => ha (by simp [hah])
  have haq : a ≠ (m h).next := by
    rintro rfl
    exact ha (by simpa [or_comm] using hnext)
  refine link_ext ?_ ?_
  · simp [listAdd, listAddBetween_next, hah, han]
  · simp [listAdd, listAddBetween_prev, haq, han]

/-- The links after `list_del` of a node between `p` and `q`. -/
theorem listDel_eq (null : α) {p q : α} (hep : (m e).prev = p) (heq : (m e).next = q)
    (hpe : (m p).next = e) (hqe : (m q).prev = e) (hp : p ≠ e) :
    ∃ m', listDel null m e = .ret m' ∧
      (∀ a, (m' a).next = if a = e then null else if a = p then q else (m a).next) ∧
      ∀ a, (m' a).prev = if a = e then null else if a = q then p else (m a).prev := by
  refine ⟨_, by rw [listDel, if_neg (by simp [heq, hqe, hep, hpe])], fun a => ?_, fun a => ?_⟩
  · simp only [hep, heq, setNext_next, setPrev_next]
  · simp only [hep, heq, setNext_next, setNext_prev, setPrev_prev, hp.symm, if_false]

/-- **`list_del` of a member.**  The corruption check passes, the member is gone,
and no link outside the list has changed. -/
theorem listDel_ring (null : α) (hr : Ring m h (u ++ e :: v)) :
    ∃ m', listDel null m e = .ret m' ∧ Ring m' h (u ++ v) ∧
      ∀ a, a ∉ h :: (u ++ e :: v) → m' a = m a := by
  obtain ⟨s, p, q, t, hsp, hqt, hpe, hep, heq, hqe, -⟩ := hr.links_at
  have hnd := hr.nodup
  have hpmem : p ∈ h :: u := by rw [hsp]; simp
  have hqmem : q ∈ v ++ [h] := by rw [hqt]; simp
  rw [← List.cons_append, List.nodup_append] at hnd
  obtain ⟨-, hndv, hdis⟩ := hnd
  rw [List.nodup_cons] at hndv
  have hpe' : p ≠ e := hdis p hpmem e (by simp)
  have hqe' : q ≠ e := by
    rcases List.mem_append.1 hqmem with hqv | hqh
    · exact fun hqe => hndv.1 (hqe ▸ hqv)
    · rw [List.mem_singleton] at hqh
      exact hqh ▸ hdis h (by simp) e (by simp)
  obtain ⟨m', hret, hnext, hprev⟩ := listDel_eq null hep heq hpe hqe hpe'
  refine ⟨m', hret, ?_, fun a ha => ?_⟩
  · refine hr.remove hep heq ?_ ?_ (fun a hap hae => ?_) (fun a haq hae => ?_)
    · rw [hnext, if_neg hpe', if_pos rfl]
    · rw [hprev, if_neg hqe', if_pos rfl]
    · rw [hnext, if_neg hae, if_neg hap]
    · rw [hprev, if_neg hae, if_neg haq]
  · have hap : a ≠ p := fun hap => ha (by
      rw [← List.cons_append]
      exact List.mem_append_left _ (hap ▸ hpmem))
    have haq : a ≠ q := fun haq => ha (by
      rcases List.mem_append.1 hqmem with hqv | hqh
      · simp [haq, hqv]
      · rw [List.mem_singleton] at hqh
        simp [haq, hqh])
    have hae : a ≠ e := fun hae => ha (by simp [hae])
    refine link_ext ?_ ?_
    · rw [hnext, if_neg hae, if_neg hap]
    · rw [hprev, if_neg hae, if_neg haq]

end Operations

end BenmoshOS.Klib
