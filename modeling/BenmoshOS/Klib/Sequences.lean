import BenmoshOS.Klib.List

/-!
# Intrusive lists as sequences

A memory usually holds many lists at once: in the scheduler every task is on two of them.
`Rings m heads seqs` says that it holds a family of circular lists with no node in common,
list `i` with head `heads i` and members `seqs i`.  Each operation changes one sequence of
the family and leaves the others alone.

`listForEachSafe` is the loop of the macro `list_for_each_safe`, for a body that works on
any state with a memory of links in it.  As long as the body takes at most the visited node
out of the list, the loop does to the state what running the body over the initial sequence
does, one node after the other.
-/

namespace BenmoshOS.Klib

variable {α : Type} [DecidableEq α] {σ ι : Type}

/-! ## The loop -/

/-- One round of `list_for_each_safe`: the test, the body, and the step to the next node,
which was read before the body ran. -/
def forEachSafeBody (links : σ → Links α) (body : α → σ → Exec σ) (head : α) :
    σ × α × α → Exec ((σ × α × α) ⊕ σ)
  | (s, pos, n) =>
      if pos = head then .ret (.inr s)
      else do
        let s ← body pos s
        .ret (.inl (s, n, (links s n).next))

/-- `list_for_each_safe (pos, n, head)`. -/
def listForEachSafe (links : σ → Links α) (body : α → σ → Exec σ) (head : α) (fuel : Nat)
    (s : σ) : Exec σ :=
  let pos := (links s head).next
  Exec.loop (forEachSafeBody links body head) fuel (s, pos, (links s pos).next)

/-- The body leaves the list alone or takes the visited node out of it, whatever else it
does. -/
def RemovesAtMostVisited (links : σ → Links α) (head : α) (body : α → σ → Exec σ) : Prop :=
  ∀ pos s s' u v, Ring (links s) head (u ++ pos :: v) → body pos s = .ret s' →
    Ring (links s') head (u ++ pos :: v) ∨ Ring (links s') head (u ++ v)

/-- The loop from a node on: `u` are the members passed and kept, `v` those to come. -/
theorem loop_forEachSafe {links : σ → Links α} {body : α → σ → Exec σ} {head : α}
    (hbody : RemovesAtMostVisited links head body) {u v : List α} {s : σ} {pos : α} {fuel : Nat}
    (hr : Ring (links s) head (u ++ v)) (hpos : (v ++ [head]).head? = some pos)
    (hfuel : v.length < fuel) :
    Exec.loop (forEachSafeBody links body head) fuel (s, pos, (links s pos).next) =
      v.foldlM (fun s x => body x s) s := by
  induction v generalizing u s pos fuel with
  | nil =>
      obtain ⟨fuel, rfl⟩ := Nat.exists_eq_add_one_of_ne_zero (Nat.ne_zero_of_lt hfuel)
      obtain rfl : head = pos := Option.some.inj hpos
      have hleave : forEachSafeBody links body head (s, head, (links s head).next) =
          .ret (.inr s) := if_pos rfl
      rw [List.foldlM_nil, Exec.loop_leave hleave, Exec.pure_eq]
  | cons x v ih =>
      obtain ⟨fuel, rfl⟩ := Nat.exists_eq_add_one_of_ne_zero (Nat.ne_zero_of_lt hfuel)
      obtain rfl : x = pos := Option.some.inj hpos
      have hne : x ≠ head := by
        rintro rfl
        exact (List.nodup_cons.1 hr.nodup).1 (by simp)
      have hnext := hr.member_next
      rw [List.foldlM_cons, Exec.loop, forEachSafeBody, if_neg hne]
      rcases hrun : body x s with s' | p | _
      · have hlt : v.length < fuel := Nat.lt_of_succ_lt_succ hfuel
        rw [Exec.ret_bind, Exec.ret_bind]
        rcases hbody x s s' u v hr hrun with hkept | hgone
        · rw [List.append_cons] at hkept
          exact ih hkept hnext hlt
        · exact ih hgone hnext hlt
      · rfl
      · rfl

/-- **The loop visits the initial sequence.** -/
theorem listForEachSafe_eq {links : σ → Links α} {body : α → σ → Exec σ} {head : α}
    (hbody : RemovesAtMostVisited links head body) {xs : List α} {s : σ} {fuel : Nat}
    (hr : Ring (links s) head xs) (hfuel : xs.length < fuel) :
    listForEachSafe links body head fuel s = xs.foldlM (fun s x => body x s) s :=
  loop_forEachSafe (u := []) hbody hr hr.head_next hfuel

/-! ## Families of lists -/

/-- The lists with the heads `heads` and the members `seqs`, with no node in common. -/
structure Rings (m : Links α) (heads : ι → α) (seqs : ι → List α) : Prop where
  ring : ∀ i, Ring m (heads i) (seqs i)
  disjoint : ∀ i j, i ≠ j → List.Disjoint (heads i :: seqs i) (heads j :: seqs j)

section Families

variable [DecidableEq ι] {m m' : Links α} {heads : ι → α} {seqs : ι → List α} {i : ι}
  {xs : List α} {n : α}

omit [DecidableEq α] in
/-- A change of one list of the family: the new members are old ones or nodes of no list,
and every link outside the list and these nodes is kept. -/
theorem Rings.update (h : Rings m heads seqs) (hring : Ring m' (heads i) xs)
    (hmem : ∀ a ∈ xs, a ∈ seqs i ∨ ∀ j, a ∉ heads j :: seqs j)
    (hrest : ∀ j, j ≠ i → ∀ a ∈ heads j :: seqs j, m' a = m a) :
    Rings m' heads (Function.update seqs i xs) := by
  have hfresh : ∀ j, j ≠ i → List.Disjoint (heads i :: xs) (heads j :: seqs j) := by
    intro j hj a hai haj
    rcases List.mem_cons.1 hai with rfl | hax
    · exact h.disjoint i j (Ne.symm hj) List.mem_cons_self haj
    · rcases hmem a hax with hold | hnew
      · exact h.disjoint i j (Ne.symm hj) (List.mem_cons_of_mem _ hold) haj
      · exact hnew j haj
  constructor
  · intro j
    by_cases hj : j = i
    · subst hj
      rwa [Function.update_self]
    · rw [Function.update_of_ne hj]
      exact (h.ring j).congr (hrest j hj)
  · intro j k hjk
    by_cases hj : j = i
    · subst hj
      rw [Function.update_self, Function.update_of_ne (Ne.symm hjk)]
      exact hfresh k (Ne.symm hjk)
    · rw [Function.update_of_ne hj]
      by_cases hk : k = i
      · subst hk
        rw [Function.update_self]
        exact (hfresh j hj).symm
      · rw [Function.update_of_ne hk]
        exact h.disjoint j k hjk

omit [DecidableEq α] [DecidableEq ι] in
/-- A node of another list is outside this one. -/
theorem Rings.notMem (h : Rings m heads seqs) {j : ι} {a : α} (hj : j ≠ i)
    (ha : a ∈ heads j :: seqs j) : a ∉ heads i :: seqs i :=
  fun hi => h.disjoint j i hj ha hi

theorem Rings.listAddTail (h : Rings m heads seqs) (hn : ∀ j, n ∉ heads j :: seqs j) :
    Rings (listAddTail m n (heads i)) heads (Function.update seqs i (seqs i ++ [n])) := by
  refine h.update (listAddTail_ring (h.ring i) (hn i)) (fun a ha => ?_) fun j hj a ha => ?_
  · rcases List.mem_append.1 ha with hold | hnew
    · exact Or.inl hold
    · rw [List.mem_singleton.1 hnew]
      exact Or.inr hn
  · exact listAddTail_apply_of_notMem (h.ring i) (h.notMem hj ha) fun han => hn j (han ▸ ha)

theorem Rings.listAdd (h : Rings m heads seqs) (hn : ∀ j, n ∉ heads j :: seqs j) :
    Rings (listAdd m n (heads i)) heads (Function.update seqs i (n :: seqs i)) := by
  refine h.update (listAdd_ring (h.ring i) (hn i)) (fun a ha => ?_) fun j hj a ha => ?_
  · rcases List.mem_cons.1 ha with rfl | hold
    · exact Or.inr hn
    · exact Or.inl hold
  · exact listAdd_apply_of_notMem (h.ring i) (h.notMem hj ha) fun han => hn j (han ▸ ha)

theorem Rings.listDel (null : α) (h : Rings m heads seqs) (hn : n ∈ seqs i) :
    ∃ m', listDel null m n = .ret m' ∧
      Rings m' heads (Function.update seqs i ((seqs i).erase n)) ∧
      ∀ a, a ∉ heads i :: seqs i → m' a = m a := by
  obtain ⟨u, v, huv⟩ := List.append_of_mem hn
  have hring := h.ring i
  rw [huv] at hring
  obtain ⟨m', hret, hring', hrest⟩ := listDel_ring null hring
  have hnu : n ∉ u := by
    have hnodup := (List.nodup_cons.1 hring.nodup).2
    exact fun hmem => (List.nodup_append.1 hnodup).2.2 n hmem n List.mem_cons_self rfl
  have herase : (seqs i).erase n = u ++ v := by
    rw [huv, List.erase_append_right _ hnu, List.erase_cons_head]
  rw [← huv] at hrest
  rw [herase]
  refine ⟨m', hret, h.update hring' (fun a ha => Or.inl ?_) fun j hj a ha => ?_, hrest⟩
  · rw [← herase] at ha
    exact List.mem_of_mem_erase ha
  · exact hrest a (h.notMem hj ha)

/-! ## A loop that deletes -/

/-- A loop body that calls `list_del` on the nodes that `del` selects. -/
def deleteIf (null : α) (del : α → Bool) (pos : α) (m : Links α) : Exec (Links α) :=
  if del pos then Klib.listDel null m pos else .ret m

theorem removesAtMostVisited_deleteIf (null head : α) (del : α → Bool) :
    RemovesAtMostVisited id head (deleteIf null del) := by
  intro pos m m' u v hr hret
  unfold deleteIf at hret
  split at hret
  · obtain ⟨m'', hret', hr', -⟩ := listDel_ring null hr
    have hdel : Klib.listDel null m pos = .ret m'' := hret'
    rw [hdel] at hret
    cases hret
    exact Or.inr hr'
  · cases hret
    exact Or.inl hr

/-- Deleting some members of a list, one after the other: `u` are the members kept. -/
theorem foldlM_deleteIf (null : α) (del : α → Bool) (h : Rings m heads seqs) {u v : List α}
    (huv : seqs i = u ++ v) :
    ∃ m', v.foldlM (fun m x => deleteIf null del x m) m = .ret m' ∧
      Rings m' heads (Function.update seqs i (u ++ v.filter fun x => !del x)) := by
  induction v generalizing m seqs u with
  | nil =>
      refine ⟨m, rfl, ?_⟩
      rw [List.filter_nil, ← huv, Function.update_eq_self]
      exact h
  | cons x v ih =>
      rw [List.foldlM_cons, deleteIf]
      by_cases hdel : del x = true
      · have hx : x ∈ seqs i := by simp [huv]
        obtain ⟨m', hret, h', -⟩ := h.listDel null hx
        have hnu : x ∉ u := by
          have hnodup := (List.nodup_cons.1 (h.ring i).nodup).2
          rw [huv] at hnodup
          exact fun hmem => (List.nodup_append.1 hnodup).2.2 x hmem x List.mem_cons_self rfl
        have herase : (seqs i).erase x = u ++ v := by
          rw [huv, List.erase_append_right _ hnu, List.erase_cons_head]
        obtain ⟨m'', hrun, h''⟩ := ih h' (by rw [Function.update_self, herase])
        rw [Function.update_idem] at h''
        rw [if_pos hdel, hret, Exec.ret_bind, List.filter_cons_of_neg (by simp [hdel])]
        exact ⟨m'', hrun, h''⟩
      · rw [List.append_cons] at huv
        obtain ⟨m', hrun, h'⟩ := ih h huv
        rw [if_neg hdel, Exec.ret_bind, List.filter_cons_of_pos (by simpa using hdel),
          List.append_cons]
        exact ⟨m', hrun, h'⟩

/-- **Intrusive lists refine sequences.**  In a memory that holds any family of disjoint
circular lists, adding a node of no list in front or at the end and deleting a member do to
the family what they say, leave every link outside the list and the new node alone, and do
not panic.  `list_for_each_safe` runs its body over the members of the list in order, once
each, for every body that takes at most the visited node out of the list; with a body that
deletes the members it likes, exactly the other members are left. -/
theorem intrusive_lists_refine (null : α) (h : Rings m heads seqs) (i : ι) :
    (∀ n, (∀ j, n ∉ heads j :: seqs j) →
      (Rings (Klib.listAddTail m n (heads i)) heads (Function.update seqs i (seqs i ++ [n])) ∧
        ∀ a, a ∉ heads i :: seqs i → a ≠ n → Klib.listAddTail m n (heads i) a = m a) ∧
      (Rings (Klib.listAdd m n (heads i)) heads (Function.update seqs i (n :: seqs i)) ∧
        ∀ a, a ∉ heads i :: seqs i → a ≠ n → Klib.listAdd m n (heads i) a = m a)) ∧
    (∀ n ∈ seqs i, ∃ m', Klib.listDel null m n = .ret m' ∧
      Rings m' heads (Function.update seqs i ((seqs i).erase n)) ∧
      ∀ a, a ∉ heads i :: seqs i → m' a = m a) ∧
    (∀ (σ : Type) (links : σ → Links α) (body : α → σ → Exec σ) (s : σ) (fuel : Nat),
      RemovesAtMostVisited links (heads i) body → links s = m → (seqs i).length < fuel →
        listForEachSafe links body (heads i) fuel s =
          (seqs i).foldlM (fun s x => body x s) s) ∧
    ∀ (del : α → Bool) (fuel : Nat), (seqs i).length < fuel →
      ∃ m', listForEachSafe id (deleteIf null del) (heads i) fuel m = .ret m' ∧
        Rings m' heads (Function.update seqs i ((seqs i).filter fun x => !del x)) := by
  refine ⟨fun n hn => ⟨⟨h.listAddTail hn, fun a ha han => ?_⟩, h.listAdd hn, fun a ha han => ?_⟩,
    fun n hn => h.listDel null hn, fun σ links body s fuel hbody hs hfuel => ?_,
    fun del fuel hfuel => ?_⟩
  · exact listAddTail_apply_of_notMem (h.ring i) ha han
  · exact listAdd_apply_of_notMem (h.ring i) ha han
  · exact listForEachSafe_eq hbody (hs ▸ h.ring i) hfuel
  · rw [listForEachSafe_eq (removesAtMostVisited_deleteIf null (heads i) del) (h.ring i) hfuel]
    exact foldlM_deleteIf null del h (List.nil_append _).symm

end Families

/-- Two lists, the one with head 0 and member 1 and the empty one with head 2: node 3 goes to
the end of the first, and deleting in a loop empties it. -/
theorem intrusive_lists_refine_two :
    Rings
        (listAddTail (listAddTail (listInit (listInit (fun _ => ⟨9, 9⟩) 0) 2) 1 0) 3 0)
        (fun b : Bool => if b then 2 else 0)
        (Function.update (fun b : Bool => if b then [] else [1]) false ([1] ++ [3])) ∧
      listForEachSafe id (deleteIf 9 fun _ => true) 0 2
          (listAddTail (listInit (listInit (fun _ => ⟨9, 9⟩) 0) 2) 1 0) =
        [1].foldlM (fun m x => deleteIf 9 (fun _ => true) x m)
          (listAddTail (listInit (listInit (fun _ => ⟨9, 9⟩) 0) 2) 1 0) := by
  have hrings : Rings (listAddTail (listInit (listInit (fun _ => ⟨9, 9⟩) 0) 2) 1 0)
      (fun b : Bool => if b then 2 else 0) (fun b : Bool => if b then [] else [1]) := by
    constructor
    · rintro (_ | _)
      · exact ⟨by decide, by decide, by decide⟩
      · exact ⟨by decide, by decide, by decide⟩
    · rintro (_ | _) (_ | _) hij
      · exact absurd rfl hij
      · simp
      · simp
      · exact absurd rfl hij
  obtain ⟨hadd, -, hloop, -⟩ := intrusive_lists_refine 9 hrings false
  have hfresh : ∀ j : Bool, 3 ∉ (if j then 2 else 0) :: (if j then [] else [1]) := by decide
  exact ⟨(hadd 3 hfresh).1.1,
    hloop _ id _ _ 2 (removesAtMostVisited_deleteIf 9 0 _) rfl (by norm_num)⟩

end BenmoshOS.Klib
