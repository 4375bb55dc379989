import BenmoshOS.Lib.Hexadecimal
import BenmoshOS.Klib.Stdlib

/-!
# Hexadecimal conversion: `itoh` of `klib/stdlib.c`

`itoh` writes eight digits and a zero byte, and leaves in `*start` where the numeral without its
leading zeros begins.  The digits come from arithmetic shifts of an `int`; that the sign is shifted
in does not matter, since four bits are kept of what is left.

* `itoh_eq` — from `*start` on, the buffer holds the numeral of the number modulo 2^32.
* `itoh_canonical` — for every number the numeral is canonical and reads back, and nothing is written
  behind the nine bytes of the buffer that `print_hex` has.
-/

namespace BenmoshOS.Klib

/-- `(n >> (7 - i) * 4) & 0xF` -/
def itohDigit (n : Int32) (i : Nat) : Int32 := (n >>> Int32.ofNat ((7 - i) * 4)) &&& 0xF

/-- The character of a digit. -/
def itohChar (digit : Int32) : UInt8 :=
  if digit < 10 then charOf (48 + digit) else charOf (65 + (digit - 10))

/-- The loop of `itoh` from index `i` on, with `left` digits to go. -/
def itohFrom (n : Int32) : Nat → Nat → Bytes → Bytes
  | 0, _, str => str
  | left + 1, i, str => itohFrom n left (i + 1) (Function.update str i (itohChar (itohDigit n i)))

/-- The while loop of `itoh`, with `left` steps until `*start` is 7. -/
def trimFrom (str : Bytes) : Nat → Nat → Nat
  | 0, start => start
  | left + 1, start => if str start = 48 then trimFrom str left (start + 1) else start

/-- `itoh`: the buffer, and what is left in `*start`. -/
def itoh (n : Int32) (str : Bytes) : Bytes × Nat :=
  let str := Function.update (itohFrom n 8 0 str) 8 0
  (str, trimFrom str 7 0)

/-! ## Digits -/

/-- Four bits of a shifted number do not depend on what is shifted in. -/
theorem nibble_sshiftRight (x : BitVec 32) {k : Nat} (hk : k ≤ 28) :
    (x.sshiftRight k &&& 15#32).toNat = x.toNat / 2 ^ k % 16 := by
  have hbits : x.sshiftRight k &&& 15#32 = x >>> k &&& 15#32 := by
    refine BitVec.eq_of_getLsbD_eq fun i hi => ?_
    have h15 : (15#32).getLsbD i = decide (i < 4) := by
      have hall : ∀ i < 32, (15#32).getLsbD i = decide (i < 4) := by decide
      exact hall i hi
    simp only [BitVec.getLsbD_and, BitVec.getLsbD_sshiftRight, BitVec.getLsbD_ushiftRight, h15]
    by_cases hlow : i < 4
    · have hin : k + i < 32 := by omega
      have hnot : ¬ 32 ≤ i := by omega
      simp [hin, hnot]
    · simp [hlow]
  rw [hbits, BitVec.toNat_and, BitVec.toNat_ushiftRight, Nat.shiftRight_eq_div_pow]
  exact Nat.and_two_pow_sub_one_eq_mod _ 4

theorem itohDigit_eq (n : Int32) {i : Nat} (hi : i < 8) :
    itohDigit n i = Int32.ofNat (n.toUInt32.toNat / 16 ^ (7 - i) % 16) := by
  have hshift : ∀ i < 8, ((Int32.ofNat ((7 - i) * 4)).toBitVec.smod 32).toNat = (7 - i) * 4 := by
    decide
  have hpow : (2 : Nat) ^ ((7 - i) * 4) = 16 ^ (7 - i) := by
    rw [Nat.mul_comm, Nat.pow_mul]
  have hlt : n.toUInt32.toNat / 16 ^ (7 - i) % 16 < 16 := Nat.mod_lt _ (by norm_num)
  refine Int32.toBitVec_inj.1 (BitVec.eq_of_toNat_eq ?_)
  have hdigit : (itohDigit n i).toBitVec = n.toBitVec.sshiftRight ((7 - i) * 4) &&& 15#32 := by
    rw [itohDigit, Int32.toBitVec_and, Int32.toBitVec_shiftRight, BitVec.sshiftRight', hshift i hi]
    rfl
  rw [hdigit, nibble_sshiftRight _ (by omega), hpow]
  have hofNat : (Int32.ofNat (n.toUInt32.toNat / 16 ^ (7 - i) % 16)).toBitVec.toNat =
      n.toUInt32.toNat / 16 ^ (7 - i) % 16 :=
    (BitVec.toNat_ofNat _ 32).trans (Nat.mod_eq_of_lt (hlt.trans (by norm_num)))
  rw [hofNat]
  rfl

theorem itohChar_ofNat {d : Nat} (hd : d < 16) : itohChar (Int32.ofNat d) = hexByte d := by
  have hall : ∀ d < 16, itohChar (Int32.ofNat d) = hexByte d := by decide
  exact hall d hd

/-! ## The buffer -/

section Buffer

variable {b str : Bytes} {n : Int32} {left i j start : Nat} {ds : List Nat}

theorem itohFrom_apply : itohFrom n left i str j =
    if i ≤ j ∧ j < i + left then itohChar (itohDigit n j) else str j := by
  induction left generalizing i str with
  | zero =>
      have hnot : ¬ (i ≤ j ∧ j < i + 0) := by omega
      rw [itohFrom, if_neg hnot]
  | succ left ih =>
      rw [itohFrom, ih]
      by_cases hj : j = i
      · subst hj
        have hnot : ¬ (j + 1 ≤ j ∧ j < j + 1 + left) := by omega
        rw [if_neg hnot, Function.update_self, if_pos (by omega)]
      · rw [Function.update_of_ne hj]
        by_cases hin : i ≤ j ∧ j < i + (left + 1)
        · rw [if_pos hin, if_pos (by omega)]
        · rw [if_neg hin, if_neg (by omega)]

/-- The digits that the loop has written. -/
theorem itoh_bytes (n : Int32) (str : Bytes) :
    BytesAt (itoh n str).1 0 ((nibbles 8 n.toUInt32.toNat).map hexByte) ∧
      (itoh n str).1 8 = 0 ∧ ∀ j ≥ 9, (itoh n str).1 j = str j := by
  have hbuffer : (itoh n str).1 = Function.update (itohFrom n 8 0 str) 8 0 := rfl
  rw [hbuffer]
  refine ⟨?_, Function.update_self _ _ _, fun j hj => ?_⟩
  · rw [bytesAt_iff]
    intro i hi
    rw [List.length_map, length_nibbles] at hi
    rw [Nat.zero_add, Function.update_of_ne (Nat.ne_of_lt hi), itohFrom_apply,
      if_pos (by omega), itohDigit_eq n hi, itohChar_ofNat (Nat.mod_lt _ (by norm_num)),
      List.getElem_map, getElem_nibbles]
  · rw [Function.update_of_ne (by omega), itohFrom_apply, if_neg (by omega)]

/-- The while loop passes the zeros in front. -/
theorem trimFrom_eq (hds : ∀ d ∈ ds, d < 16) (h : BytesAt b start (ds.map hexByte)) :
    trimFrom b ds.length start = start + (ds.takeWhile (· == 0)).length := by
  have hzero : ∀ d < 16, hexByte d = 48 ↔ d = 0 := by decide
  induction ds generalizing start with
  | nil => rfl
  | cons d ds ih =>
      obtain ⟨hd, hrest⟩ := h
      have hiff := hzero d (hds d (by simp))
      rw [List.length_cons, trimFrom, hd]
      by_cases hd0 : d = 0
      · rw [if_pos (hiff.2 hd0), ih (fun e he => hds e (by simp [he])) hrest]
        simp [hd0]
        omega
      · rw [if_neg (mt hiff.1 hd0)]
        simp [hd0]

/-- From `*start` on, the buffer holds the numeral. -/
theorem itoh_eq (n : Int32) (str : Bytes) :
    StringAt (itoh n str).1 (itoh n str).2 (hexadecimal n.toUInt32.toNat) ∧
      (itoh n str).2 + (hexadecimal n.toUInt32.toNat).length = 8 ∧
      ∀ j ≥ 9, (itoh n str).1 j = str j := by
  obtain ⟨hbytes, hend, hrest⟩ := itoh_bytes n str
  have hstart : (itoh n str).2 = trimFrom (itoh n str).1 7 0 := rfl
  have hlt : n.toUInt32.toNat < 16 ^ (7 + 1) := n.toUInt32.toNat_lt
  rw [hstart, hexadecimal_eq hlt]
  generalize n.toUInt32.toNat = v at hbytes
  generalize (itoh n str).1 = b at hbytes hend hrest ⊢
  have hsplit : nibbles 8 v = (nibbles 7 (v / 16)).takeWhile (· == 0) ++
      ((nibbles 7 (v / 16)).dropWhile (· == 0) ++ [v % 16]) := by
    rw [← List.append_assoc, List.takeWhile_append_dropWhile]
    rfl
  have hlen : ((nibbles 7 (v / 16)).takeWhile (· == 0)).length +
      ((nibbles 7 (v / 16)).dropWhile (· == 0) ++ [v % 16]).length = 8 := by
    rw [← List.length_append, ← hsplit, length_nibbles]
  have hprefix : BytesAt b 0 ((nibbles 7 (v / 16)).map hexByte) := by
    rw [nibbles, List.map_append, bytesAt_append] at hbytes
    exact hbytes.1
  have htrim : trimFrom b 7 0 = ((nibbles 7 (v / 16)).takeWhile (· == 0)).length := by
    have h := trimFrom_eq (fun d hd => nibbles_lt hd) hprefix
    rwa [length_nibbles, Nat.zero_add] at h
  rw [hsplit, List.map_append, bytesAt_append, List.length_map, Nat.zero_add] at hbytes
  have hdigits : ∀ d ∈ (nibbles 7 (v / 16)).dropWhile (· == 0) ++ [v % 16], d < 16 := by
    intro d hd
    refine nibbles_lt (k := 8) (n := v) ?_
    rw [hsplit]
    exact List.mem_append_right _ hd
  have hne : ∀ d < 16, hexByte d ≠ 0 := by decide
  rw [htrim]
  refine ⟨stringAt_iff.2 ⟨hbytes.2, fun c hc => ?_, ?_⟩, ?_, hrest⟩
  · obtain ⟨d, hd, rfl⟩ := List.mem_map.1 hc
    exact hne d (hdigits d hd)
  · rw [List.length_map, hlen]
    exact hend
  · rw [List.length_map]
    exact hlen

end Buffer

/-- **`itoh` for every number.**  What `puts` is given is the numeral of the number modulo 2^32, in
digits and capital letters: it reads back, and only that of zero begins with a zero; nothing
behind nine bytes is written. -/
theorem itoh_canonical (n : Int32) (str : Bytes) :
    ∃ s, StringAt (itoh n str).1 (itoh n str).2 s ∧ (∀ c ∈ s, IsHexDigit c) ∧
      readHex s = n.toUInt32.toNat ∧ (s.head? = some 48 → s = [48]) ∧ (itoh n str).2 ≤ 7 ∧
      ∀ j ≥ 9, (itoh n str).1 j = str j := by
  obtain ⟨hstring, hlen, hrest⟩ := itoh_eq n str
  refine ⟨_, hstring, fun c hc => isHexDigit_of_mem hc, readHex_hexadecimal _, fun hhead => ?_, ?_,
    hrest⟩
  · rw [hexadecimal_head hhead]
    rfl
  · have hpos : 0 < (hexadecimal n.toUInt32.toNat).length := by simp [hexadecimal]
    omega

end BenmoshOS.Klib
