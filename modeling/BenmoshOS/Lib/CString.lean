import Mathlib.Tactic

/-!
# Strings that end in a zero byte

A memory of bytes `b : Nat → UInt8` holds the string `s` at address `p` when the bytes of `s`
stand there one after another, none of them zero, and a zero byte follows
(`StringAt b p s`).

* `StringAt.unique` — there is one string at an address;
* `StringAt.congr` — it only depends on its own bytes and the zero byte behind them;
* `stringAt_iff` — a string is a run of nonzero bytes (`BytesAt`) with a zero byte behind it.
-/

namespace BenmoshOS

/-- A memory of bytes. -/
abbrev Bytes := Nat → UInt8

/-- `StringAt b p s`: the string at address `p` is `s`. -/
def StringAt (b : Bytes) : Nat → List UInt8 → Prop
  | p, [] => b p = 0
  | p, c :: s => b p = c ∧ c ≠ 0 ∧ StringAt b (p + 1) s

@[simp] theorem stringAt_nil {b : Bytes} {p : Nat} : StringAt b p [] ↔ b p = 0 := Iff.rfl

@[simp] theorem stringAt_cons {b : Bytes} {p : Nat} {c : UInt8} {s : List UInt8} :
    StringAt b p (c :: s) ↔ b p = c ∧ c ≠ 0 ∧ StringAt b (p + 1) s := Iff.rfl

namespace StringAt

variable {b b' : Bytes} {p q : Nat} {c : UInt8} {s t : List UInt8}

/-- There is one string at an address. -/
theorem unique (hs : StringAt b p s) (ht : StringAt b p t) : s = t := by
  induction s generalizing p t with
  | nil =>
      cases t with
      | nil => rfl
      | cons c t => exact absurd (ht.1.symm.trans hs) ht.2.1
  | cons c s ih =>
      cases t with
      | nil => exact absurd (hs.1.symm.trans ht) hs.2.1
      | cons d t =>
          obtain ⟨hc, -, hs⟩ := hs
          obtain ⟨hd, -, ht⟩ := ht
          rw [ih hs ht, ← hc, ← hd]

/-- The same bytes somewhere else. -/
theorem shift (hs : StringAt b p s) (h : ∀ i ≤ s.length, b' (q + i) = b (p + i)) :
    StringAt b' q s := by
  induction s generalizing p q with
  | nil => exact (h 0 (le_refl _)).trans hs
  | cons c s ih =>
      obtain ⟨hc, hne, hs⟩ := hs
      refine ⟨(h 0 (Nat.zero_le _)).trans hc, hne, ih hs fun i hi => ?_⟩
      rw [Nat.add_assoc, Nat.add_assoc, Nat.add_comm 1 i]
      exact h (i + 1) (Nat.succ_le_succ hi)

/-- A string only depends on its own bytes and the zero byte behind them. -/
theorem congr (hs : StringAt b p s) (h : ∀ i, p ≤ i → i ≤ p + s.length → b' i = b i) :
    StringAt b' p s :=
  hs.shift fun i hi => h (p + i) (Nat.le_add_right p i) (Nat.add_le_add_left hi p)

/-- The zero byte behind a string. -/
theorem terminator (hs : StringAt b p s) : b (p + s.length) = 0 := by
  induction s generalizing p with
  | nil => exact hs
  | cons c s ih =>
      rw [List.length_cons, Nat.add_comm s.length 1, ← Nat.add_assoc]
      exact ih hs.2.2

/-- The bytes of a string. -/
theorem byte (hs : StringAt b p s) {i : Nat} (hi : i < s.length) : b (p + i) = s[i] := by
  induction s generalizing p i with
  | nil => exact absurd hi (Nat.not_lt_zero i)
  | cons c s ih =>
      cases i with
      | zero => exact hs.1
      | succ i =>
          have hplace : p + (i + 1) = p + 1 + i := by omega
          rw [hplace, List.getElem_cons_succ]
          exact ih hs.2.2 (Nat.lt_of_succ_lt_succ hi)

/-- No byte of a string is zero. -/
theorem ne_zero (hs : StringAt b p s) (hc : c ∈ s) : c ≠ 0 := by
  induction s generalizing p with
  | nil => exact absurd hc List.not_mem_nil
  | cons d s ih =>
      rcases List.mem_cons.1 hc with rfl | hmem
      · exact hs.2.1
      · exact ih hs.2.2 hmem

/-- One more character at the end. -/
theorem snoc (hs : StringAt b p s) (hc : c ≠ 0)
    (h : ∀ i, p ≤ i → i < p + s.length → b' i = b i) (hlast : b' (p + s.length) = c)
    (hend : b' (p + s.length + 1) = 0) : StringAt b' p (s ++ [c]) := by
  induction s generalizing p with
  | nil => exact ⟨hlast, hc, hend⟩
  | cons d s ih =>
      obtain ⟨hd, hne, hs⟩ := hs
      have hlen : p + (d :: s).length = p + 1 + s.length := by
        rw [List.length_cons]
        omega
      rw [hlen] at h hlast hend
      refine ⟨(h p (le_refl p) (by omega)).trans hd, hne, ih hs ?_ hlast hend⟩
      exact fun i hi hlt => h i (by omega) hlt

/-- A zero byte cuts a string. -/
theorem take (hs : StringAt b p s) {n : Nat} (hn : n ≤ s.length)
    (h : ∀ i, p ≤ i → i < p + n → b' i = b i) (hend : b' (p + n) = 0) :
    StringAt b' p (s.take n) := by
  induction s generalizing p n with
  | nil =>
      obtain rfl : n = 0 := Nat.le_zero.1 hn
      exact hend
  | cons d s ih =>
      cases n with
      | zero => exact hend
      | succ n =>
          obtain ⟨hd, hne, hs⟩ := hs
          rw [← Nat.add_assoc, Nat.add_right_comm] at hend
          refine ⟨(h p (le_refl p) (by omega)).trans hd, hne, ih hs (Nat.le_of_succ_le_succ hn)
            (fun i hi hlt => h i (by omega) (by omega)) hend⟩

end StringAt

/-! ## Runs of bytes -/

/-- `BytesAt b p s`: the bytes `s` stand at address `p`, whatever follows them. -/
def BytesAt (b : Bytes) : Nat → List UInt8 → Prop
  | _, [] => True
  | p, c :: s => b p = c ∧ BytesAt b (p + 1) s

section BytesAt

variable {b b' : Bytes} {p : Nat} {c : UInt8} {s t : List UInt8}

@[simp] theorem bytesAt_nil : BytesAt b p [] := trivial

@[simp] theorem bytesAt_cons : BytesAt b p (c :: s) ↔ b p = c ∧ BytesAt b (p + 1) s := Iff.rfl

theorem bytesAt_append :
    BytesAt b p (s ++ t) ↔ BytesAt b p s ∧ BytesAt b (p + s.length) t := by
  induction s generalizing p with
  | nil => simp
  | cons c s ih =>
      have hlen : p + (c :: s).length = p + 1 + s.length := by
        rw [List.length_cons]
        omega
      rw [List.cons_append, bytesAt_cons, bytesAt_cons, ih, hlen, and_assoc]

theorem bytesAt_iff : BytesAt b p s ↔ ∀ i (h : i < s.length), b (p + i) = s[i] := by
  induction s generalizing p with
  | nil => simp
  | cons c s ih =>
      rw [bytesAt_cons, ih]
      constructor
      · rintro ⟨hc, hs⟩ i hi
        cases i with
        | zero => exact hc
        | succ i =>
            have h := hs i (Nat.lt_of_succ_lt_succ hi)
            rwa [Nat.add_assoc, Nat.add_comm 1 i] at h
      · intro h
        refine ⟨h 0 (Nat.succ_pos _), fun i hi => ?_⟩
        rw [Nat.add_assoc, Nat.add_comm 1 i]
        exact h (i + 1) (Nat.succ_lt_succ hi)

theorem BytesAt.congr (hs : BytesAt b p s) (h : ∀ i, p ≤ i → i < p + s.length → b' i = b i) :
    BytesAt b' p s := by
  rw [bytesAt_iff] at hs ⊢
  intro i hi
  rw [h (p + i) (Nat.le_add_right p i) (Nat.add_lt_add_left hi p)]
  exact hs i hi

/-- A string is a run of nonzero bytes with a zero byte behind it. -/
theorem stringAt_iff :
    StringAt b p s ↔ BytesAt b p s ∧ (∀ c ∈ s, c ≠ 0) ∧ b (p + s.length) = 0 := by
  induction s generalizing p with
  | nil => simp
  | cons c s ih =>
      have hlen : p + (c :: s).length = p + 1 + s.length := by
        rw [List.length_cons]
        omega
      rw [stringAt_cons, bytesAt_cons, ih, hlen, List.forall_mem_cons]
      tauto

end BytesAt

end BenmoshOS
