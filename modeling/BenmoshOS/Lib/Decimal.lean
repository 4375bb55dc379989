import Mathlib.Tactic
import Mathlib.Data.Nat.Digits.Lemmas

/-!
# Decimal numerals as byte strings

`Canonical n s` says that the bytes `s` are the decimal numeral of the integer `n`: a minus
sign for a negative number, then its digits, the first of them zero only for 0 itself.

* `numeral` — the numeral, from the digits that Mathlib computes;
* `canonical_numeral` — it is canonical;
* `readDigits_lowDigits` — reading its digits from the left gives the number back.
-/

namespace BenmoshOS

/-- The character of a digit. -/
def digitByte (d : Nat) : UInt8 := UInt8.ofNat (48 + d)

/-- The decimal digits of a number, the lowest first, at least one of them. -/
def lowDigits (n : Nat) : List Nat := if n = 0 then [0] else Nat.digits 10 n

/-- The decimal digits of a number as characters. -/
def decimal (n : Nat) : List UInt8 := (lowDigits n).reverse.map digitByte

/-- The minus sign of a negative number. -/
def signBytes (n : Int) : List UInt8 := if n < 0 then [45] else []

/-- The decimal numeral of an integer. -/
def numeral (n : Int) : List UInt8 := signBytes n ++ decimal n.natAbs

/-- `s` is the canonical decimal numeral of `n`. -/
def Canonical (n : Int) (s : List UInt8) : Prop :=
  ∃ ds : List Nat, ds ≠ [] ∧ (∀ d ∈ ds, d < 10) ∧ (ds.head? = some 0 → ds = [0]) ∧
    Nat.ofDigits 10 ds.reverse = n.natAbs ∧ s = signBytes n ++ ds.map digitByte

/-! ## Digits -/

theorem toNat_digitByte {d : Nat} (hd : d < 10) : (digitByte d).toNat = 48 + d := by
  unfold digitByte
  rw [UInt8.toNat_ofNat']
  omega

theorem lowDigits_of_lt {n : Nat} (hn : n < 10) : lowDigits n = [n] := by
  unfold lowDigits
  split
  · next h => rw [h]
  · next h => exact Nat.digits_of_lt 10 n h hn

theorem lowDigits_of_le {n : Nat} (hn : 10 ≤ n) :
    lowDigits n = n % 10 :: lowDigits (n / 10) := by
  have hdiv : n / 10 ≠ 0 := by omega
  have hne : n ≠ 0 := by omega
  rw [lowDigits, if_neg hne, lowDigits, if_neg hdiv]
  exact Nat.digits_def' (by norm_num) (by omega)

theorem lowDigits_lt_ten {n d : Nat} (hd : d ∈ lowDigits n) : d < 10 := by
  unfold lowDigits at hd
  split at hd
  · rw [List.mem_singleton.1 hd]
    norm_num
  · exact Nat.digits_lt_base (by norm_num) hd

theorem lowDigits_ne_nil (n : Nat) : lowDigits n ≠ [] := by
  unfold lowDigits
  split
  · simp
  · next h => exact Nat.digits_ne_nil_iff_ne_zero.2 h

theorem ofDigits_lowDigits (n : Nat) : Nat.ofDigits 10 (lowDigits n) = n := by
  unfold lowDigits
  split
  · next h => simp [h]
  · exact Nat.ofDigits_digits 10 n

/-- The highest digit is zero only for the number zero. -/
theorem lowDigits_getLast {n : Nat} (h : (lowDigits n).getLast? = some 0) :
    lowDigits n = [0] := by
  unfold lowDigits at h ⊢
  split
  · rfl
  · next hn =>
      rw [if_neg hn, List.getLast?_eq_getLast_of_ne_nil (Nat.digits_ne_nil_iff_ne_zero.2 hn)] at h
      exact absurd (Option.some.inj h) (Nat.getLast_digit_ne_zero 10 hn)

theorem length_lowDigits_le {n k : Nat} (hk : 0 < k) (hn : n < 10 ^ k) :
    (lowDigits n).length ≤ k := by
  unfold lowDigits
  split
  · exact hk
  · exact (Nat.digits_length_le_iff (by norm_num) n).2 hn

/-! ## Numerals -/

theorem length_signBytes_le (n : Int) : (signBytes n).length ≤ 1 := by
  unfold signBytes
  split
  · simp
  · simp

theorem canonical_numeral (n : Int) : Canonical n (numeral n) := by
  refine ⟨(lowDigits n.natAbs).reverse, ?_, ?_, ?_, ?_, ?_⟩
  · simpa using lowDigits_ne_nil n.natAbs
  · intro d hd
    exact lowDigits_lt_ten (List.mem_reverse.1 hd)
  · intro h
    rw [List.head?_reverse] at h
    rw [lowDigits_getLast h]
    rfl
  · rw [List.reverse_reverse, ofDigits_lowDigits]
  · rfl

/-- Digits read from the left, behind the value `v`. -/
def readDigits (v : Nat) (ds : List Nat) : Nat := ds.foldl (fun v d => v * 10 + d) v

theorem readDigits_cons (v d : Nat) (ds : List Nat) :
    readDigits v (d :: ds) = readDigits (v * 10 + d) ds := rfl

/-- Reading the digits of a number from the left gives the number. -/
theorem readDigits_lowDigits (n : Nat) : readDigits 0 (lowDigits n).reverse = n := by
  have hfold : ∀ ds : List Nat, readDigits 0 ds.reverse = Nat.ofDigits 10 ds := by
    intro ds
    rw [readDigits, List.foldl_reverse, Nat.ofDigits_eq_foldr]
    congr 1
    funext d v
    simp only [Nat.cast_id]
    ring
  rw [hfold, ofDigits_lowDigits]

end BenmoshOS
