import Mathlib.Data.Nat.Digits.Lemmas
import Mathlib.Tactic

/-!
# Hexadecimal numerals as byte strings

The counterpart of the decimal numerals for base 16, with capital letters and without a sign.

* `hexadecimal` — the numeral of a number, its highest digit zero only for 0 itself;
* `nibbles` — the lowest `k` digits, padded with zeros, as a conversion with a fixed width has them;
* `dropWhile_nibbles` — without the zeros in front, the digits of the number;
* `readHex_hexadecimal` — reading a numeral gives the number back.
-/

namespace BenmoshOS

/-- The character of a hexadecimal digit. -/
def hexByte (d : Nat) : UInt8 := if d < 10 then UInt8.ofNat (48 + d) else UInt8.ofNat (55 + d)

/-- The numeral of a number: its last digit, and the others in front as far as there are any. -/
def hexadecimal (n : Nat) : List UInt8 :=
  ((Nat.digits 16 (n / 16)).reverse ++ [n % 16]).map hexByte

/-- The lowest `k` digits, the highest of them first. -/
def nibbles : Nat → Nat → List Nat
  | 0, _ => []
  | k + 1, n => nibbles k (n / 16) ++ [n % 16]

/-- A digit or a capital letter from A to F. -/
def IsHexDigit (c : UInt8) : Prop := 48 ≤ c ∧ c ≤ 57 ∨ 65 ≤ c ∧ c ≤ 70

instance (c : UInt8) : Decidable (IsHexDigit c) := inferInstanceAs (Decidable (_ ∨ _))

/-- The value of a character of a numeral. -/
def hexValue (c : UInt8) : Nat := if c.toNat < 58 then c.toNat - 48 else c.toNat - 55

/-- A numeral read from the left. -/
def readHex (s : List UInt8) : Nat := s.foldl (fun v c => v * 16 + hexValue c) 0

theorem length_nibbles (k n : Nat) : (nibbles k n).length = k := by
  induction k generalizing n with
  | zero => rfl
  | succ k ih => rw [nibbles, List.length_append, ih, List.length_singleton]

theorem nibbles_lt {k n d : Nat} (hd : d ∈ nibbles k n) : d < 16 := by
  induction k generalizing n with
  | zero => cases hd
  | succ k ih =>
      rcases List.mem_append.1 hd with h | h
      · exact ih h
      · rw [List.mem_singleton.1 h]
        exact Nat.mod_lt n (by norm_num)

/-- The digits from the front. -/
theorem getElem_nibbles {k n i : Nat} (hi : i < (nibbles k n).length) :
    (nibbles k n)[i] = n / 16 ^ (k - 1 - i) % 16 := by
  induction k generalizing n i with
  | zero => exact absurd hi (Nat.not_lt_zero i)
  | succ k ih =>
      have hlen := length_nibbles k (n / 16)
      rw [length_nibbles] at hi
      by_cases hlt : i < k
      · have hpow : 16 * 16 ^ (k - 1 - i) = 16 ^ (k + 1 - 1 - i) := by
          rw [← Nat.pow_succ']
          congr 1
          omega
        simp only [nibbles]
        rw [List.getElem_append_left (by omega), ih, Nat.div_div_eq_div_mul, hpow]
      · obtain rfl : i = k := by omega
        simp only [nibbles]
        rw [List.getElem_append_right (by omega)]
        simp

theorem nibbles_zero (k : Nat) : nibbles k 0 = List.replicate k 0 := by
  induction k with
  | zero => rfl
  | succ k ih => rw [nibbles, Nat.zero_div, ih, List.replicate_succ']

/-- Without the zeros in front, the digits of the number are left. -/
theorem dropWhile_nibbles {k n : Nat} (hn : n < 16 ^ k) :
    (nibbles k n).dropWhile (· == 0) = (Nat.digits 16 n).reverse := by
  induction k generalizing n with
  | zero =>
      obtain rfl : n = 0 := by simpa using hn
      rfl
  | succ k ih =>
      by_cases hzero : n = 0
      · subst hzero
        rw [nibbles_zero]
        simp
      · have hdiv : n / 16 < 16 ^ k := by
          rw [Nat.pow_succ'] at hn
          omega
        have hdigits : Nat.digits 16 n = n % 16 :: Nat.digits 16 (n / 16) :=
          Nat.digits_def' (by norm_num) (by omega)
        rw [nibbles, List.dropWhile_append, ih hdiv, hdigits, List.reverse_cons]
        by_cases hq : n / 16 = 0
        · have hmod : n % 16 ≠ 0 := by omega
          simp [hq, hmod]
        · have hne : (Nat.digits 16 (n / 16)).reverse.isEmpty = false := by
            simpa using Nat.digits_ne_nil_iff_ne_zero.2 hq
          rw [hne]
          rfl

/-- The digits of a numeral are all needed. -/
theorem hexadecimal_eq {k n : Nat} (hn : n < 16 ^ (k + 1)) :
    hexadecimal n = ((nibbles k (n / 16)).dropWhile (· == 0) ++ [n % 16]).map hexByte := by
  have hdiv : n / 16 < 16 ^ k := by
    rw [Nat.pow_succ'] at hn
    omega
  rw [dropWhile_nibbles hdiv, hexadecimal]

/-! ## Reading -/

theorem hexValue_hexByte {d : Nat} (hd : d < 16) : hexValue (hexByte d) = d := by
  have hall : ∀ d < 16, hexValue (hexByte d) = d := by decide
  exact hall d hd

theorem readHex_map {ds : List Nat} (hds : ∀ d ∈ ds, d < 16) (v : Nat) :
    (ds.map hexByte).foldl (fun v c => v * 16 + hexValue c) v =
      ds.foldl (fun v d => v * 16 + d) v := by
  induction ds generalizing v with
  | nil => rfl
  | cons d ds ih =>
      rw [List.map_cons, List.foldl_cons, List.foldl_cons, hexValue_hexByte (hds d (by simp))]
      exact ih (fun e he => hds e (by simp [he])) _

theorem digits_append_lt {n d : Nat}
    (hd : d ∈ (Nat.digits 16 (n / 16)).reverse ++ [n % 16]) : d < 16 := by
  rcases List.mem_append.1 hd with h | h
  · exact Nat.digits_lt_base (by norm_num) (List.mem_reverse.1 h)
  · rw [List.mem_singleton.1 h]
    exact Nat.mod_lt n (by norm_num)

/-- A numeral has digits and capital letters only. -/
theorem isHexDigit_of_mem {n : Nat} {c : UInt8} (hc : c ∈ hexadecimal n) : IsHexDigit c := by
  have hall : ∀ d < 16, IsHexDigit (hexByte d) := by decide
  obtain ⟨d, hd, rfl⟩ := List.mem_map.1 hc
  exact hall d (digits_append_lt hd)

/-- **Round trip.** -/
theorem readHex_hexadecimal (n : Nat) : readHex (hexadecimal n) = n := by
  have hfold : ∀ ds : List Nat, ds.reverse.foldl (fun v d => v * 16 + d) 0 = Nat.ofDigits 16 ds := by
    intro ds
    rw [List.foldl_reverse, Nat.ofDigits_eq_foldr]
    congr 1
    funext d v
    simp only [Nat.cast_id]
    ring
  rw [readHex, hexadecimal, readHex_map fun d hd => digits_append_lt hd, List.foldl_append, hfold, Nat.ofDigits_digits,
    List.foldl_cons, List.foldl_nil]
  omega

/-- A numeral has no zero in front unless it is that of zero. -/
theorem hexadecimal_head {n : Nat} (h : (hexadecimal n).head? = some 48) : n = 0 := by
  have hbyte : ∀ d < 16, hexByte d = 48 → d = 0 := by decide
  by_cases hq : n / 16 = 0
  · have hlt : n < 16 := by omega
    rw [hexadecimal, hq, Nat.mod_eq_of_lt hlt] at h
    exact hbyte n hlt (by simpa using h)
  · exfalso
    have hne : Nat.digits 16 (n / 16) ≠ [] := Nat.digits_ne_nil_iff_ne_zero.2 hq
    have hlast := Nat.getLast_digit_ne_zero 16 hq
    have hmem := List.getLast_mem hne
    rw [hexadecimal, List.head?_map, List.head?_append, List.head?_reverse,
      List.getLast?_eq_getLast_of_ne_nil hne] at h
    have hzero : hexByte ((Nat.digits 16 (n / 16)).getLast hne) = 48 := by simpa using h
    exact hlast (hbyte _ (Nat.digits_lt_base (by norm_num) hmem) hzero)

end BenmoshOS
