import BenmoshOS.Lib.CString

/-!
# String functions: `klib/string.c`

`strcpy`, `strncpy` and `strcmp` over whole buffers.  The loops of `strcpy` and `strcmp` end
at a zero byte and know nothing of the buffers they run through, so the models take the size
of the buffers and return `none` when a loop leaves them.
-/

namespace BenmoshOS.Klib

/-- The loop of `strcpy` from index `i` on, with `room` bytes left in the buffers. -/
def strcpyFrom (src : Bytes) : Nat → Nat → Bytes → Option Bytes
  | 0, _, _ => none
  | room + 1, i, dest =>
      if src i = 0 then some (Function.update dest i 0)
      else strcpyFrom src room (i + 1) (Function.update dest i (src i))

/-- `strcpy`, for buffers of `size` bytes. -/
def strcpy (size : Nat) (dest src : Bytes) : Option Bytes := strcpyFrom src size 0 dest

/-- The second loop of `strncpy`. -/
def zeroFrom : Nat → Nat → Bytes → Bytes
  | 0, _, dest => dest
  | left + 1, i, dest => zeroFrom left (i + 1) (Function.update dest i 0)

/-- The first loop of `strncpy`, and the second one behind it. -/
def strncpyFrom (src : Bytes) : Nat → Nat → Bytes → Bytes
  | 0, _, dest => dest
  | left + 1, i, dest =>
      if src i ≠ 0 then strncpyFrom src left (i + 1) (Function.update dest i (src i))
      else zeroFrom (left + 1) i dest

/-- `strncpy`. -/
def strncpy (dest src : Bytes) (n : Nat) : Bytes := strncpyFrom src n 0 dest

/-- The loop of `strcmp` from index `i` on, with `room` bytes left in the buffers. -/
def strcmpFrom (s1 s2 : Bytes) : Nat → Nat → Option Int
  | 0, _ => none
  | room + 1, i =>
      if s1 i ≠ 0 ∧ s1 i = s2 i then strcmpFrom s1 s2 room (i + 1)
      else some ((s1 i).toNat - (s2 i).toNat)

/-- `strcmp`, for buffers of `size` bytes. -/
def strcmp (size : Nat) (s1 s2 : Bytes) : Option Int := strcmpFrom s1 s2 size 0

/-! ## What they do with strings -/

section Strings

variable {src dest s1 s2 : Bytes} {s t : List UInt8} {i room left : Nat}

theorem strcpyFrom_eq (hs : StringAt src i s) (hroom : s.length < room) :
    ∃ dest', strcpyFrom src room i dest = some dest' ∧ StringAt dest' i s ∧
      ∀ j < i, dest' j = dest j := by
  induction s generalizing i room dest with
  | nil =>
      obtain ⟨room, rfl⟩ := Nat.exists_eq_add_one_of_ne_zero (Nat.ne_zero_of_lt hroom)
      refine ⟨Function.update dest i 0, if_pos hs, Function.update_self _ _ _, fun j hj => ?_⟩
      exact Function.update_of_ne (Nat.ne_of_lt hj) _ _
  | cons c s ih =>
      obtain ⟨room, rfl⟩ := Nat.exists_eq_add_one_of_ne_zero (Nat.ne_zero_of_lt hroom)
      obtain ⟨hc, hne, hs⟩ := hs
      obtain ⟨dest', hcopy, hstr, hframe⟩ : ∃ dest',
          strcpyFrom src room (i + 1) (Function.update dest i (src i)) = some dest' ∧
            StringAt dest' (i + 1) s ∧ ∀ j < i + 1, dest' j = Function.update dest i (src i) j :=
        ih hs (Nat.lt_of_succ_lt_succ hroom)
      refine ⟨dest', ?_, ⟨?_, hne, hstr⟩, fun j hj => ?_⟩
      · rw [strcpyFrom, if_neg (by rwa [hc])]
        exact hcopy
      · rw [hframe i (Nat.lt_succ_self i), Function.update_self]
        exact hc
      · rw [hframe j (Nat.lt_succ_of_lt hj), Function.update_of_ne (Nat.ne_of_lt hj)]

/-- **`strcpy`** copies a string for which the buffer is large enough. -/
theorem strcpy_eq {size : Nat} (dest : Bytes) (hs : StringAt src 0 s) (hsize : s.length < size) :
    ∃ dest', strcpy size dest src = some dest' ∧ StringAt dest' 0 s := by
  obtain ⟨dest', hcopy, hstr, -⟩ := strcpyFrom_eq hs hsize
  exact ⟨dest', hcopy, hstr⟩

theorem zeroFrom_apply (left i : Nat) (dest : Bytes) (j : Nat) :
    zeroFrom left i dest j = if i ≤ j ∧ j < i + left then 0 else dest j := by
  induction left generalizing i dest with
  | zero =>
      rw [if_neg (by omega)]
      rfl
  | succ left ih =>
      rw [zeroFrom, ih]
      by_cases hj : j = i
      · subst hj
        rw [if_neg (by omega), if_pos (by omega), Function.update_self]
      · rw [Function.update_of_ne hj]
        exact if_congr (by omega) rfl rfl

theorem strncpyFrom_apply (hs : StringAt src i s) (hleft : s.length ≤ left) (j : Nat) :
    strncpyFrom src left i dest j =
      if i ≤ j ∧ j < i + left then if j < i + s.length then src j else 0 else dest j := by
  induction s generalizing i left dest with
  | nil =>
      have hj : ¬ (i ≤ j ∧ j < i) := by omega
      cases left with
      | zero => exact (if_neg hj).symm
      | succ left =>
          have hend : ¬ src i ≠ 0 := not_not.2 hs
          rw [strncpyFrom, if_neg hend, zeroFrom_apply]
          refine if_ctx_congr Iff.rfl (fun h => ?_) fun _ => rfl
          exact (if_neg (Nat.not_lt.2 h.1)).symm
  | cons c s ih =>
      obtain ⟨left, rfl⟩ := Nat.exists_eq_add_one_of_ne_zero (Nat.ne_zero_of_lt hleft)
      obtain ⟨hc, hne, hs⟩ := hs
      rw [strncpyFrom, if_pos (by rwa [hc]), ih hs (Nat.le_of_succ_le_succ hleft)]
      by_cases hj : j = i
      · subst hj
        rw [if_neg (by omega), if_pos (by omega), if_pos (by simp), Function.update_self]
      · rw [Function.update_of_ne hj]
        refine if_congr (by omega) (if_congr ?_ rfl rfl) rfl
        rw [List.length_cons]
        omega

/-- **`strncpy`** copies a string that fits, and fills up with zero bytes. -/
theorem strncpy_apply {n : Nat} (hs : StringAt src 0 s) (hn : s.length ≤ n) (j : Nat) :
    strncpy dest src n j =
      if j < n then if j < s.length then src j else 0 else dest j := by
  unfold strncpy
  rw [strncpyFrom_apply hs hn]
  simp

/-- The difference that `strcmp` returns. -/
theorem byte_sub_eq_zero {x y : UInt8} : (x.toNat : Int) - y.toNat = 0 ↔ x = y := by
  rw [Int.sub_eq_zero, Int.ofNat_inj, UInt8.toNat_inj]

theorem strcmpFrom_eq (hs : StringAt s1 i s) (ht : StringAt s2 i t) (hroom : s.length < room) :
    ∃ d, strcmpFrom s1 s2 room i = some d ∧ (d = 0 ↔ s = t) := by
  induction s generalizing i room t with
  | nil =>
      obtain ⟨room, rfl⟩ := Nat.exists_eq_add_one_of_ne_zero (Nat.ne_zero_of_lt hroom)
      refine ⟨_, if_neg fun h => h.1 hs, byte_sub_eq_zero.trans ?_⟩
      have hs : s1 i = 0 := hs
      rw [hs]
      cases t with
      | nil => exact iff_of_true ht.symm rfl
      | cons d t => exact iff_of_false (fun h => ht.2.1 (ht.1.symm.trans h.symm)) (by simp)
  | cons c s ih =>
      obtain ⟨room, rfl⟩ := Nat.exists_eq_add_one_of_ne_zero (Nat.ne_zero_of_lt hroom)
      obtain ⟨hc, hne, hs⟩ := hs
      by_cases heq : s1 i = s2 i
      · -- one round further
        rw [strcmpFrom, if_pos ⟨by rwa [hc], heq⟩]
        cases t with
        | nil => exact absurd (hc.symm.trans (heq.trans ht)) hne
        | cons d t =>
            obtain ⟨hd, -, ht⟩ := ht
            obtain ⟨e, hcmp, hiff⟩ := ih hs ht (Nat.lt_of_succ_lt_succ hroom)
            have hcd : c = d := by rw [← hc, ← hd, heq]
            refine ⟨e, hcmp, ?_⟩
            rw [hiff, hcd, List.cons_inj_right]
      · refine ⟨_, if_neg fun h => heq h.2, byte_sub_eq_zero.trans ?_⟩
        refine iff_of_false heq fun hst => heq ?_
        subst hst
        rw [hc, ht.1]

/-- **`strcmp`** compares two strings. -/
theorem strcmp_eq {size : Nat} (hs : StringAt s1 0 s) (ht : StringAt s2 0 t)
    (hsize : s.length < size) : ∃ d, strcmp size s1 s2 = some d ∧ (d = 0 ↔ s = t) :=
  strcmpFrom_eq hs ht hsize

end Strings

end BenmoshOS.Klib
