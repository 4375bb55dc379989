import Mathlib.Tactic

/-!
# Bounded queues in a ring of cells

A queue of at most `n - 1` elements in `n` cells: new elements go to the cell `head`, old ones
are taken from the cell `tail`, and both indices advance modulo `n`.  One cell stays free, so
that equal indices mean an empty queue (`contents_eq_nil_iff`) and a full queue is one whose
head would run into its tail (`full_iff`).

`contents_push` and `contents_pop` say that the ring is a queue; both hold across any number of
turns, because they speak about the indices only through `size` and `index`.
-/

namespace BenmoshOS

/-- The cells of a ring with its two indices. -/
structure Fifo (α : Type) where
  cells : Nat → α
  head : Nat
  tail : Nat

namespace Fifo

variable {α : Type} {n : Nat} {q : Fifo α} {c : α}

/-- Both indices are those of cells. -/
structure WellFormed (n : Nat) (q : Fifo α) : Prop where
  head_lt : q.head < n
  tail_lt : q.tail < n

/-- The number of elements in the queue. -/
def size (n : Nat) (q : Fifo α) : Nat :=
  if q.tail ≤ q.head then q.head - q.tail else q.head + n - q.tail

/-- The cell of the `i`-th element. -/
def index (n : Nat) (q : Fifo α) (i : Nat) : Nat := (q.tail + i) % n

/-- The elements of the queue, the oldest first. -/
def contents (n : Nat) (q : Fifo α) : List α :=
  (List.range (q.size n)).map fun i => q.cells (q.index n i)

/-- A new element. -/
def push (n : Nat) (q : Fifo α) (c : α) : Fifo α :=
  { q with cells := Function.update q.cells q.head c, head := (q.head + 1) % n }

/-- The oldest element is gone. -/
def pop (n : Nat) (q : Fifo α) : Fifo α := { q with tail := (q.tail + 1) % n }

/-! ## Indices -/

theorem mod_of_lt_twice {a : Nat} (h : a < 2 * n) : a % n = if a < n then a else a - n := by
  split
  · next ha => exact Nat.mod_eq_of_lt ha
  · next ha =>
      rw [Nat.mod_eq_sub_mod (by omega)]
      exact Nat.mod_eq_of_lt (by omega)

theorem WellFormed.index_eq (h : q.WellFormed n) {i : Nat} (hi : i < n) :
    q.index n i = if q.tail + i < n then q.tail + i else q.tail + i - n := by
  have ht := h.tail_lt
  exact mod_of_lt_twice (by omega)

theorem succ_mod_eq {a : Nat} (ha : a < n) :
    (a + 1) % n = if a + 1 < n then a + 1 else 0 := by
  rw [mod_of_lt_twice (by omega)]
  split
  · rfl
  · omega

theorem WellFormed.size_lt (h : q.WellFormed n) : q.size n < n := by
  have hh := h.head_lt
  have ht := h.tail_lt
  unfold size
  split
  · omega
  · omega

theorem WellFormed.push (h : q.WellFormed n) : (q.push n c).WellFormed n :=
  ⟨Nat.mod_lt _ (Nat.zero_lt_of_lt h.head_lt), h.tail_lt⟩

theorem WellFormed.pop (h : q.WellFormed n) : (q.pop n).WellFormed n :=
  ⟨h.head_lt, Nat.mod_lt _ (Nat.zero_lt_of_lt h.tail_lt)⟩

@[simp] theorem length_contents : (q.contents n).length = q.size n := by simp [contents]

/-! ## Empty and full -/

theorem WellFormed.size_eq_zero_iff (h : q.WellFormed n) : q.size n = 0 ↔ q.head = q.tail := by
  have ht := h.tail_lt
  unfold size
  split
  · omega
  · omega

theorem WellFormed.contents_eq_nil_iff (h : q.WellFormed n) :
    q.contents n = [] ↔ q.head = q.tail := by
  rw [← List.length_eq_zero_iff, length_contents, h.size_eq_zero_iff]

/-- The head would run into the tail exactly when all cells but one are taken. -/
theorem WellFormed.full_iff (h : q.WellFormed n) :
    (q.head + 1) % n = q.tail ↔ q.size n = n - 1 := by
  have hh := h.head_lt
  have ht := h.tail_lt
  rw [succ_mod_eq hh]
  unfold size
  split
  · split
    · omega
    · omega
  · split
    · omega
    · omega

/-! ## The two operations -/

theorem WellFormed.size_push (h : q.WellFormed n) (hroom : (q.head + 1) % n ≠ q.tail) :
    (q.push n c).size n = q.size n + 1 := by
  have hh := h.head_lt
  have ht := h.tail_lt
  rw [succ_mod_eq hh] at hroom
  simp only [size, Fifo.push, succ_mod_eq hh]
  split at hroom
  · next hlt =>
      rw [if_pos hlt]
      split
      · rw [if_pos (by omega)]
        omega
      · rw [if_neg (by omega)]
        omega
  · next hlt =>
      rw [if_neg hlt, if_neg (by omega), if_pos (by omega)]
      omega

/-- The cell behind the last element is the one at the head. -/
theorem WellFormed.index_size (h : q.WellFormed n) : q.index n (q.size n) = q.head := by
  have hh := h.head_lt
  have ht := h.tail_lt
  rw [h.index_eq h.size_lt]
  unfold size
  split
  · rw [if_pos (by omega)]
    omega
  · rw [if_neg (by omega)]
    omega

theorem WellFormed.index_injective (h : q.WellFormed n) {i j : Nat} (hi : i < n) (hj : j < n)
    (heq : q.index n i = q.index n j) : i = j := by
  rw [h.index_eq hi, h.index_eq hj] at heq
  have ht := h.tail_lt
  split at heq
  · split at heq
    · omega
    · omega
  · split at heq
    · omega
    · omega

/-- A new element goes behind the others, and none of them is overwritten. -/
theorem WellFormed.contents_push (h : q.WellFormed n) (hroom : (q.head + 1) % n ≠ q.tail) :
    (q.push n c).contents n = q.contents n ++ [c] := by
  have hindex : ∀ i, (q.push n c).index n i = q.index n i := fun _ => rfl
  have hold : ∀ i < q.size n, (q.push n c).cells (q.index n i) = q.cells (q.index n i) := by
    intro i hi
    refine Function.update_of_ne (fun hhead => ?_) _ _
    rw [← h.index_size] at hhead
    exact Nat.ne_of_lt hi (h.index_injective (hi.trans h.size_lt) h.size_lt hhead)
  have hnew : (q.push n c).cells (q.index n (q.size n)) = c := by
    rw [h.index_size]
    exact Function.update_self _ _ _
  rw [contents, h.size_push hroom, List.range_succ, List.map_append, contents]
  congr 1
  · refine List.map_congr_left fun i hi => ?_
    rw [hindex, hold i (List.mem_range.1 hi)]
  · rw [List.map_singleton, hindex, hnew]

/-- Popping takes the oldest element. -/
theorem WellFormed.contents_pop (h : q.WellFormed n) (hne : q.head ≠ q.tail) :
    q.contents n = q.cells q.tail :: (q.pop n).contents n := by
  have hh := h.head_lt
  have ht := h.tail_lt
  have hsize : q.size n = (q.pop n).size n + 1 := by
    simp only [size, Fifo.pop, succ_mod_eq ht]
    by_cases hlt : q.tail + 1 < n
    · rw [if_pos hlt]
      split
      · rw [if_pos (by omega)]
        omega
      · rw [if_neg (by omega)]
        omega
    · rw [if_neg hlt, if_neg (by omega), if_pos (Nat.zero_le _)]
      omega
  have hindex : ∀ i, q.index n (i + 1) = (q.pop n).index n i := by
    intro i
    rw [index, index, Fifo.pop, Nat.mod_add_mod, Nat.add_assoc, Nat.add_comm 1 i]
  have hfirst : q.index n 0 = q.tail := Nat.mod_eq_of_lt ht
  rw [contents, hsize, List.range_succ_eq_map, List.map_cons, hfirst, List.map_map, contents]
  congr 1
  exact List.map_congr_left fun i _ => congrArg q.cells (hindex i)

end Fifo

end BenmoshOS
