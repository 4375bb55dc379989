import Mathlib.Tactic

/-!
# Numbers in memory, least significant byte first

`load mem a n` is the number in the `n` bytes from address `a` on, and `store mem a v n` puts a
number there.  `load_store` is the round trip, `store_of_outside` and `load_store_of_apart` say
that the rest of memory stays.
-/

namespace BenmoshOS.LittleEndian

/-- The number in `n` bytes of memory. -/
def load (mem : Nat → UInt8) (a : Nat) : Nat → Nat
  | 0 => 0
  | n + 1 => (mem a).toNat + 256 * load mem (a + 1) n

/-- Put a number into `n` bytes of memory. -/
def store (mem : Nat → UInt8) (a v n : Nat) : Nat → UInt8 := fun x =>
  if a ≤ x ∧ x < a + n then UInt8.ofNat (v / 256 ^ (x - a)) else mem x

variable {mem mem' : Nat → UInt8} {a b v n m : Nat}

theorem load_congr (h : ∀ i < n, mem' (a + i) = mem (a + i)) : load mem' a n = load mem a n := by
  induction n generalizing a with
  | zero => rfl
  | succ n ih =>
      rw [load, load, ih fun i hi => ?_]
      · rw [← Nat.add_zero a, h 0 (Nat.succ_pos n)]
      · rw [Nat.add_assoc, Nat.add_comm 1 i]
        exact h (i + 1) (Nat.succ_lt_succ hi)

/-- Bytes that are the digits of a number are read as that number. -/
theorem load_of_bytes (h : ∀ i < n, mem (a + i) = UInt8.ofNat (v / 256 ^ i)) :
    load mem a n = v % 256 ^ n := by
  induction n generalizing a v with
  | zero => rw [load, pow_zero, Nat.mod_one]
  | succ n ih =>
      have hfirst : (mem a).toNat = v % 256 := by
        have h₀ := h 0 (Nat.succ_pos n)
        rw [Nat.add_zero, pow_zero, Nat.div_one] at h₀
        rw [h₀, UInt8.toNat_ofNat']
      have hrest : load mem (a + 1) n = v / 256 % 256 ^ n := by
        refine ih fun i hi => ?_
        have hi' := h (i + 1) (Nat.succ_lt_succ hi)
        rw [Nat.add_assoc, Nat.add_comm 1 i, hi', pow_succ', Nat.div_div_eq_div_mul]
      rw [load, hfirst, hrest, pow_succ', Nat.mod_mul]

theorem store_of_outside {x : Nat} (h : x < a ∨ a + n ≤ x) : store mem a v n x = mem x :=
  if_neg (by omega)

/-- A number that fits is read back. -/
theorem load_store (mem : Nat → UInt8) (a v n : Nat) : load (store mem a v n) a n = v % 256 ^ n :=
  load_of_bytes fun i hi => by
    rw [store, if_pos (by omega), Nat.add_sub_cancel_left]

/-- A number elsewhere is not disturbed. -/
theorem load_store_of_apart (h : b + m ≤ a ∨ a + n ≤ b) :
    load (store mem a v n) b m = load mem b m :=
  load_congr fun _ _ => store_of_outside (by omega)

end BenmoshOS.LittleEndian
