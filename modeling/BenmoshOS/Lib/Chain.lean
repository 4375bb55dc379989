import Mathlib.Tactic

/-!
# Chains in a link table

A table `next : α → α` links every element to one other; a chain follows the links
from a first value until a value that marks the end.  The elements of a chain are
given by a list, so that a chain is finite by construction.

* `Chain.unique`, `Chain.nodup` — a chain is determined by its first value and
  visits no element twice.
* `Chain.congr`, `Chain.snoc` — a change of the table elsewhere keeps a chain, and
  linking a new last element extends it.
-/

namespace BenmoshOS

variable {α : Type}

/-- `cs` are the elements visited from `v` on until a value in `stop`. -/
def Chain (next : α → α) (stop : α → Prop) : α → List α → Prop
  | v, [] => stop v
  | v, c :: cs => v = c ∧ ¬ stop c ∧ Chain next stop (next c) cs

namespace Chain

variable {next next' : α → α} {stop : α → Prop} {v : α} {cs : List α}

@[simp] theorem nil_iff : Chain next stop v [] ↔ stop v := Iff.rfl

@[simp] theorem cons_iff {c : α} :
    Chain next stop v (c :: cs) ↔ v = c ∧ ¬ stop c ∧ Chain next stop (next c) cs := Iff.rfl

/-- No element of a chain marks the end. -/
theorem not_stop (h : Chain next stop v cs) : ∀ c ∈ cs, ¬ stop c := by
  induction cs generalizing v with
  | nil => simp
  | cons a cs ih =>
      obtain ⟨-, ha, h⟩ := h
      intro c hc
      rcases List.mem_cons.1 hc with rfl | hc
      · exact ha
      · exact ih h c hc

theorem unique {cs' : List α} (h : Chain next stop v cs) (h' : Chain next stop v cs') :
    cs = cs' := by
  induction cs generalizing v cs' with
  | nil =>
      cases cs' with
      | nil => rfl
      | cons c' cs' => exact absurd (h'.1 ▸ h) h'.2.1
  | cons c cs ih =>
      cases cs' with
      | nil => exact absurd (h.1 ▸ h') h.2.1
      | cons c' cs' =>
          obtain ⟨rfl, -, h⟩ := h
          obtain ⟨rfl, -, h'⟩ := h'
          rw [ih h h']

/-- What follows an element of a chain is a chain from its link on. -/
theorem of_append {xs ys : List α} {c : α} (h : Chain next stop v (xs ++ c :: ys)) :
    Chain next stop (next c) ys := by
  induction xs generalizing v with
  | nil => exact h.2.2
  | cons x xs ih => exact ih h.2.2

theorem nodup (h : Chain next stop v cs) : cs.Nodup := by
  induction cs generalizing v with
  | nil => exact List.nodup_nil
  | cons c cs ih =>
      refine List.nodup_cons.2 ⟨fun hc => ?_, ih h.2.2⟩
      -- a second visit of `c` would be followed by the same elements as the first
      obtain ⟨xs, ys, rfl⟩ := List.append_of_mem hc
      have heq := h.2.2.unique (of_append h.2.2)
      have hlen := congrArg List.length heq
      simp only [List.length_append, List.length_cons] at hlen
      omega

theorem congr (h : Chain next stop v cs) (hn : ∀ c ∈ cs, next' c = next c) :
    Chain next' stop v cs := by
  induction cs generalizing v with
  | nil => exact h
  | cons c cs ih =>
      refine ⟨h.1, h.2.1, ?_⟩
      rw [hn c (List.mem_cons_self ..)]
      exact ih h.2.2 fun a ha => hn a (List.mem_cons_of_mem _ ha)

/-- The link of an element ends the chain or leads to another element. -/
theorem next_mem (h : Chain next stop v cs) : ∀ c ∈ cs, stop (next c) ∨ next c ∈ cs := by
  induction cs generalizing v with
  | nil => simp
  | cons a cs ih =>
      obtain ⟨-, -, h⟩ := h
      intro c hc
      rcases List.mem_cons.1 hc with rfl | hc
      · cases cs with
        | nil => exact Or.inl h
        | cons b cs =>
            refine Or.inr (List.mem_cons_of_mem _ ?_)
            rw [h.1]
            exact List.mem_cons_self ..
      · exact (ih h c hc).imp_right (List.mem_cons_of_mem _)

/-- The elements of a chain are the iterates of its first value. -/
theorem eq_iterate (h : Chain next stop v cs) :
    cs = List.iterate next v cs.length ∧ stop (next^[cs.length] v) := by
  induction cs generalizing v with
  | nil => exact ⟨rfl, h⟩
  | cons a cs ih =>
      obtain ⟨rfl, -, h⟩ := h
      obtain ⟨hcs, hstop⟩ := ih h
      refine ⟨?_, hstop⟩
      rw [List.length_cons, List.iterate, ← hcs]

/-- A chain whose last element is linked to a new end. -/
theorem snoc {l c : α} (h : Chain next stop v (cs ++ [l]))
    (hkeep : ∀ a ∈ cs, next' a = next a) (hl : next' l = c) (hc : ¬ stop c)
    (hend : stop (next' c)) : Chain next' stop v (cs ++ [l, c]) := by
  induction cs generalizing v with
  | nil => exact ⟨h.1, h.2.1, hl, hc, hend⟩
  | cons a cs ih =>
      refine ⟨h.1, h.2.1, ?_⟩
      rw [hkeep a (List.mem_cons_self ..)]
      exact ih h.2.2 fun b hb => hkeep b (List.mem_cons_of_mem _ hb)

end Chain

end BenmoshOS
