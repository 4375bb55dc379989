import BenmoshOS.Lib.CString
import BenmoshOS.Lib.Decimal

/-!
# Number conversions: `klib/stdlib.c`

`reverse`, `itoa` and `atoi`.  An `int` is an `Int32`: the arithmetic wraps and division
truncates.  As for the string functions, the loops know nothing of the buffer they run
through, so the models take its size and return `none` when a loop leaves it.

Negating the least integer gives the least integer back, so `itoa` runs its digit loop on a
negative number there, once.  `itoa_atoi_iff` says that this is the only number the two
functions do not take to its numeral and back.
-/

namespace BenmoshOS.Klib

/-! ## `reverse` -/

/-- The first loop of `reverse`: the index of the zero byte. -/
def endFrom (s : Bytes) : Nat → Nat → Option Nat
  | 0, _ => none
  | room + 1, j => if s j = 0 then some j else endFrom s room (j + 1)

/-- The exchange of two bytes. -/
def swap (s : Bytes) (i j : Nat) : Bytes := Function.update (Function.update s i (s j)) j (s i)

/-- The second loop of `reverse`, between the indices `i` and `j`. -/
def swapFrom : Nat → Nat → Bytes → Bytes
  | _, 0, s => s
  | i, j + 1, s => if i < j + 1 then swapFrom (i + 1) j (swap s i (j + 1)) else s

/-- `reverse`, in a buffer of `size` bytes. -/
def reverse (size : Nat) (s : Bytes) : Option Bytes :=
  match endFrom s size 0 with
  | none => none
  | some 0 => some s    -- `j` is -1 and the second loop is not entered
  | some (j + 1) => some (swapFrom 0 j s)

/-! ## `itoa` -/

/-- A number as the `char` it is stored as. -/
def charOf (n : Int32) : UInt8 := n.toInt8.toUInt8

/-- The do-while loop of `itoa` from index `i` on, with `room` bytes left in the buffer. -/
def itoaFrom : Nat → Nat → Int32 → Bytes → Option (Nat × Bytes)
  | 0, _, _, _ => none
  | room + 1, i, n, str =>
      let str := Function.update str i (charOf (n % 10 + 48))
      if n / 10 > 0 then itoaFrom room (i + 1) (n / 10) str else some (i + 1, str)

/-- A store into a buffer of `size` bytes. -/
def store (size i : Nat) (c : UInt8) (str : Bytes) : Option Bytes :=
  if i < size then some (Function.update str i c) else none

/-- The minus sign behind the digits, with the index that follows it. -/
def putSign (size : Nat) (sign : Int32) (i : Nat) (str : Bytes) : Option (Nat × Bytes) :=
  if sign < 0 then (store size i 45 str).map (i + 1, ·) else some (i, str)

/-- `itoa`, into a buffer of `size` bytes. -/
def itoa (size : Nat) (n : Int32) (str : Bytes) : Option Bytes := do
  let (i, str) ← itoaFrom size 0 (if n < 0 then -n else n) str
  let (i, str) ← putSign size n i str
  let str ← store size i 0 str
  reverse size str

/-! ## `atoi` -/

/-- The loop of `atoi` from index `idx` on, with `room` bytes left in the buffer.  A `char`
is signed. -/
def atoiFrom (str : Bytes) : Nat → Nat → Int32 → Option Int32
  | 0, _, _ => none
  | room + 1, idx, res =>
      if str idx = 0 then some res
      else if (str idx).toInt8 < 48 ∨ 57 < (str idx).toInt8 then some res
      else atoiFrom str room (idx + 1) (res * 10 + ((str idx).toInt8.toInt32 - 48))

/-- `atoi`, on a buffer of `size` bytes. -/
def atoi (size : Nat) (str : Bytes) : Option Int32 :=
  if str 0 = 45 then (atoiFrom str (size - 1) 1 0).map (-1 * ·)
  else (atoiFrom str size 0 0).map (1 * ·)

/-! ## What `reverse` does -/

section Reverse

variable {s : Bytes} {l : List UInt8} {size room i j k : Nat}

theorem endFrom_eq (hs : StringAt s j l) (hroom : l.length < room) :
    endFrom s room j = some (j + l.length) := by
  induction l generalizing j room with
  | nil =>
      obtain ⟨room, rfl⟩ := Nat.exists_eq_add_one_of_ne_zero (Nat.ne_zero_of_lt hroom)
      exact if_pos hs
  | cons c l ih =>
      obtain ⟨room, rfl⟩ := Nat.exists_eq_add_one_of_ne_zero (Nat.ne_zero_of_lt hroom)
      obtain ⟨hc, hne, hs⟩ := hs
      have hnext := ih hs (Nat.lt_of_succ_lt_succ hroom)
      rw [endFrom, if_neg (hc ▸ hne), hnext, List.length_cons]
      congr 1
      omega

theorem swap_apply : swap s i j k = if k = j then s i else if k = i then s j else s k := by
  simp only [swap, Function.update_apply]

/-- The exchanges turn the bytes between the two indices round. -/
theorem swapFrom_apply (hij : i ≤ j + 1) :
    swapFrom i j s k = if i ≤ k ∧ k ≤ j then s (i + j - k) else s k := by
  induction j generalizing i s with
  | zero =>
      rw [swapFrom]
      split
      · congr 1
        omega
      · rfl
  | succ j ih =>
      rw [swapFrom]
      by_cases hlt : i < j + 1
      · rw [if_pos hlt, ih (by omega)]
        simp only [swap_apply]
        -- the two outer places were exchanged, the ones between them are turned round
        by_cases hin : i + 1 ≤ k ∧ k ≤ j
        · have hleft : i + 1 + j - k ≠ j + 1 := by omega
          have hright : i + 1 + j - k ≠ i := by omega
          rw [if_pos hin, if_neg hleft, if_neg hright, if_pos (by omega)]
          congr 1
          omega
        · rw [if_neg hin]
          by_cases hkj : k = j + 1
          · subst hkj
            rw [if_pos rfl, if_pos (by omega)]
            congr 1
            omega
          · by_cases hki : k = i
            · subst hki
              rw [if_neg hkj, if_pos rfl, if_pos (by omega)]
              congr 1
              omega
            · rw [if_neg hkj, if_neg hki, if_neg (by omega)]
      · rw [if_neg hlt]
        split
        · congr 1
          omega
        · rfl

theorem reverse_eq (hs : StringAt s 0 l) (hsize : l.length < size) :
    ∃ s', reverse size s = some s' ∧ StringAt s' 0 l.reverse ∧ ∀ k ≥ l.length, s' k = s k := by
  have hend := endFrom_eq hs hsize
  rw [Nat.zero_add] at hend
  obtain ⟨hbytes, hne, hzero⟩ := stringAt_iff.1 hs
  rw [bytesAt_iff] at hbytes
  simp only [Nat.zero_add] at hbytes hzero
  rcases hlen : l.length with _ | j
  · obtain rfl : l = [] := List.eq_nil_of_length_eq_zero hlen
    refine ⟨s, ?_, hs, fun k _ => rfl⟩
    rw [reverse, hend]
    rfl
  · rw [hlen] at hend
    refine ⟨swapFrom 0 j s, ?_, ?_, fun k hk => ?_⟩
    · rw [reverse, hend]
    · rw [stringAt_iff, bytesAt_iff]
      refine ⟨fun i hi => ?_, fun c hc => hne c (List.mem_reverse.1 hc), ?_⟩
      · rw [List.length_reverse, hlen] at hi
        rw [Nat.zero_add, swapFrom_apply (Nat.zero_le _), if_pos (by omega),
          List.getElem_reverse, hbytes _ (by omega)]
        congr 1
        omega
      · rw [List.length_reverse, Nat.zero_add, hlen, swapFrom_apply (Nat.zero_le _),
          if_neg (by omega), ← hlen, hzero]
    · rw [swapFrom_apply (Nat.zero_le _), if_neg (by omega)]

end Reverse

/-! ## What `itoa` does -/

theorem charOf_digit {d : Nat} (hd : d < 10) : charOf (Int32.ofNat d + 48) = digitByte d := by
  have hall : ∀ d < 10, charOf (Int32.ofNat d + 48) = digitByte d := by decide
  exact hall d hd

section Itoa

variable {str str' : Bytes} {size room i k : Nat}

theorem ofNat_mod_ten (hk : k < 2 ^ 31) : Int32.ofNat k % 10 = Int32.ofNat (k % 10) :=
  (Int32.ofNat_mod hk (by norm_num)).symm

theorem ofNat_div_ten (hk : k < 2 ^ 31) : Int32.ofNat k / 10 = Int32.ofNat (k / 10) :=
  (Int32.ofNat_div hk (by norm_num)).symm

theorem ofNat_pos_iff (hk : k < 2 ^ 31) : Int32.ofNat k > 0 ↔ 0 < k :=
  Int32.ofNat_lt_iff_lt (by norm_num) hk

/-- The digit loop writes the digits of a nonnegative number, the lowest first. -/
theorem itoaFrom_eq (hk : k < 2 ^ 31) (hroom : (lowDigits k).length ≤ room) :
    ∃ str', itoaFrom room i (Int32.ofNat k) str = some (i + (lowDigits k).length, str') ∧
      BytesAt str' i ((lowDigits k).map digitByte) ∧
      ∀ t, t < i ∨ i + (lowDigits k).length ≤ t → str' t = str t := by
  induction room generalizing i k str with
  | zero => exact absurd (List.eq_nil_of_length_eq_zero (Nat.le_zero.1 hroom)) (lowDigits_ne_nil k)
  | succ room ih =>
      have hdiv : k / 10 < 2 ^ 31 := (Nat.div_le_self k 10).trans_lt hk
      simp only [itoaFrom, ofNat_mod_ten hk, ofNat_div_ten hk,
        charOf_digit (Nat.mod_lt k (by norm_num)), ofNat_pos_iff hdiv]
      by_cases hten : k < 10
      · have hzero : ¬ 0 < k / 10 := by omega
        rw [if_neg hzero, lowDigits_of_lt hten, Nat.mod_eq_of_lt hten]
        refine ⟨_, rfl, ⟨Function.update_self _ _ _, trivial⟩, fun t ht => ?_⟩
        rw [List.length_singleton] at ht
        exact Function.update_of_ne (by omega) _ _
      · have hpos : 0 < k / 10 := by omega
        rw [lowDigits_of_le (by omega), List.length_cons] at hroom ⊢
        obtain ⟨str', heq, hbytes, hrest⟩ := @ih (Function.update str i (digitByte (k % 10)))
          (i + 1) (k / 10) hdiv (Nat.le_of_succ_le_succ hroom)
        rw [if_pos hpos, heq]
        refine ⟨str', ?_, ?_, fun t ht => ?_⟩
        · rw [Nat.add_right_comm, Nat.add_assoc]
        · rw [List.map_cons, bytesAt_cons, hrest i (Or.inl (Nat.lt_succ_self i))]
          exact ⟨Function.update_self _ _ _, hbytes⟩
        · rw [hrest t (by omega)]
          exact Function.update_of_ne (by omega) _ _

theorem digitByte_ne_zero {d : Nat} (hd : d < 10) : digitByte d ≠ 0 := by
  intro h
  have htoNat := toNat_digitByte hd
  rw [h, UInt8.toNat_zero] at htoNat
  omega

/-- What `itoa` has written when it calls `reverse`, after the digits of a
nonnegative number. -/
theorem ne_zero_of_mem_written {n : Int} {c : UInt8}
    (hc : c ∈ (lowDigits k).map digitByte ++ signBytes n) : c ≠ 0 := by
  rcases List.mem_append.1 hc with hd | hs
  · obtain ⟨d, hmem, rfl⟩ := List.mem_map.1 hd
    exact digitByte_ne_zero (lowDigits_lt_ten hmem)
  · unfold signBytes at hs
    split at hs
    · rw [List.mem_singleton.1 hs]
      decide
    · cases hs

theorem reverse_written (n : Int) :
    ((lowDigits n.natAbs).map digitByte ++ signBytes n).reverse = numeral n := by
  rw [List.reverse_append, numeral, decimal, List.map_reverse]
  congr 1
  unfold signBytes
  split
  · rfl
  · rfl

/-- Any number but the least has its absolute value among the numbers. -/
theorem abs_eq {n : Int32} (hn : n ≠ Int32.minValue) :
    (if n < 0 then -n else n) = Int32.ofNat n.toInt.natAbs ∧ n.toInt.natAbs < 2 ^ 31 := by
  have hle := n.le_toInt
  have hlt := n.toInt_lt
  have hmin : n.toInt ≠ -2 ^ 31 := fun h => hn (Int32.toInt_inj.1 h)
  have habs : n.toInt.natAbs < 2 ^ 31 := by omega
  refine ⟨Int32.toInt_inj.1 ?_, habs⟩
  have hneg : n < 0 ↔ n.toInt < 0 := Int32.lt_iff_toInt_lt
  rw [Int32.toInt_ofNat_of_lt habs]
  split
  · next h =>
      rw [hneg] at h
      rw [Int32.toInt_neg, Int.bmod_eq_of_le (by omega) (by omega)]
      omega
  · next h =>
      rw [hneg] at h
      omega

theorem length_lowDigits_natAbs {n : Int32} (hn : n ≠ Int32.minValue) :
    (lowDigits n.toInt.natAbs).length ≤ 10 :=
  length_lowDigits_le (by norm_num) ((abs_eq hn).2.trans (by norm_num))

theorem length_numeral_le {n : Int32} (hn : n ≠ Int32.minValue) :
    (numeral n.toInt).length ≤ 11 := by
  have hdigits := length_lowDigits_natAbs hn
  have hsign := length_signBytes_le n.toInt
  simp only [numeral, decimal, List.length_append, List.length_map, List.length_reverse]
  omega

theorem putSign_eq {n : Int32} {ds : List UInt8} (hbytes : BytesAt str 0 ds)
    (hsize : ds.length < size) :
    ∃ str', putSign size n ds.length str =
        some ((ds ++ signBytes n.toInt).length, str') ∧
      BytesAt str' 0 (ds ++ signBytes n.toInt) ∧ ∀ t > ds.length, str' t = str t := by
  have hneg : n < 0 ↔ n.toInt < 0 := Int32.lt_iff_toInt_lt
  unfold putSign signBytes
  by_cases hn : n < 0
  · rw [if_pos hn, if_pos (hneg.1 hn), store, if_pos hsize, List.length_append]
    refine ⟨_, rfl, ?_, fun t ht => Function.update_of_ne (Nat.ne_of_gt ht) _ _⟩
    rw [bytesAt_append, Nat.zero_add]
    refine ⟨hbytes.congr fun i _ hi => ?_, Function.update_self _ _ _, trivial⟩
    rw [Nat.zero_add] at hi
    exact Function.update_of_ne (Nat.ne_of_lt hi) _ _
  · rw [if_neg hn, if_neg (mt hneg.2 hn), List.append_nil]
    exact ⟨str, rfl, hbytes, fun t _ => rfl⟩

/-- A zero byte behind a run of nonzero bytes makes it a string. -/
theorem store_zero {l : List UInt8} (hbytes : BytesAt str 0 l) (hne : ∀ c ∈ l, c ≠ 0)
    (hsize : l.length < size) :
    ∃ str', store size l.length 0 str = some str' ∧ StringAt str' 0 l ∧
      ∀ t > l.length, str' t = str t := by
  refine ⟨_, if_pos hsize, ?_, fun t ht => Function.update_of_ne (Nat.ne_of_gt ht) _ _⟩
  rw [stringAt_iff, Nat.zero_add]
  refine ⟨hbytes.congr fun i _ hi => ?_, hne, Function.update_self _ _ _⟩
  rw [Nat.zero_add] at hi
  exact Function.update_of_ne (Nat.ne_of_lt hi) _ _

/-- Any number but the least is written as its numeral. -/
theorem itoa_eq {n : Int32} (hn : n ≠ Int32.minValue) (hsize : 12 ≤ size) :
    ∃ str', itoa size n str = some str' ∧ StringAt str' 0 (numeral n.toInt) ∧
      ∀ t ≥ 12, str' t = str t := by
  obtain ⟨habs, hlt⟩ := abs_eq hn
  have hdigits := length_lowDigits_natAbs hn
  have hsign := length_signBytes_le n.toInt
  obtain ⟨s₁, hloop, hbytes₁, hrest₁⟩ := @itoaFrom_eq str size 0 n.toInt.natAbs hlt (by omega)
  rw [Nat.zero_add] at hloop hrest₁
  -- from here on with the characters written in place of the digits
  have hlen : (lowDigits n.toInt.natAbs).length =
      ((lowDigits n.toInt.natAbs).map digitByte).length := (List.length_map _).symm
  rw [hlen] at hloop hrest₁ hdigits
  have hwritten : ∀ c ∈ (lowDigits n.toInt.natAbs).map digitByte ++ signBytes n.toInt, c ≠ 0 :=
    fun c hc => ne_zero_of_mem_written hc
  have hround := reverse_written n.toInt
  generalize (lowDigits n.toInt.natAbs).map digitByte = ds at *
  obtain ⟨s₂, hput, hbytes₂, hrest₂⟩ := @putSign_eq s₁ size n ds hbytes₁ (by omega)
  have htotal : (ds ++ signBytes n.toInt).length ≤ 11 := by
    rw [List.length_append]
    omega
  obtain ⟨s₃, hstore, hstring, hrest₃⟩ := @store_zero s₂ size _ hbytes₂ hwritten (by omega)
  obtain ⟨s₄, hreverse, hnumeral, hrest₄⟩ := @reverse_eq s₃ _ size hstring (by omega)
  refine ⟨s₄, ?_, hround ▸ hnumeral, fun t ht => ?_⟩
  · rw [itoa, habs, hloop]
    simp only [Option.bind_eq_bind, Option.bind_some, hput, hstore]
    exact hreverse
  · rw [hrest₄ t (by omega), hrest₃ t (by omega), hrest₂ t (by omega)]
    exact hrest₁ t (by omega)

/-! ## What `atoi` does -/

theorem digitByte_signed {d : Nat} (hd : d < 10) :
    ¬ ((digitByte d).toInt8 < 48 ∨ 57 < (digitByte d).toInt8) ∧
      (digitByte d).toInt8.toInt32 - 48 = Int32.ofNat d := by
  have hall : ∀ d < 10, ¬ ((digitByte d).toInt8 < 48 ∨ 57 < (digitByte d).toInt8) ∧
      (digitByte d).toInt8.toInt32 - 48 = Int32.ofNat d := by decide
  exact hall d hd

/-- The loop of `atoi` reads digits from the left, modulo 2^32. -/
theorem atoiFrom_eq {ds : List Nat} (hds : ∀ d ∈ ds, d < 10) {v : Nat}
    (hs : StringAt str i (ds.map digitByte)) (hroom : ds.length < room) :
    atoiFrom str room i (Int32.ofNat v) = some (Int32.ofNat (readDigits v ds)) := by
  induction ds generalizing i room v with
  | nil =>
      obtain ⟨room, rfl⟩ := Nat.exists_eq_add_one_of_ne_zero (Nat.ne_zero_of_lt hroom)
      exact if_pos hs
  | cons d ds ih =>
      obtain ⟨room, rfl⟩ := Nat.exists_eq_add_one_of_ne_zero (Nat.ne_zero_of_lt hroom)
      obtain ⟨hc, hne, hs⟩ := hs
      obtain ⟨hdigit, hvalue⟩ := digitByte_signed (hds d List.mem_cons_self)
      rw [atoiFrom, hc, if_neg hne, if_neg hdigit, hvalue, readDigits_cons,
        ← ih (fun e he => hds e (List.mem_cons_of_mem d he)) hs (Nat.lt_of_succ_lt_succ hroom),
        Int32.ofNat_add, Int32.ofNat_mul]
      rfl

theorem digitByte_ne_minus {d : Nat} (hd : d < 10) : digitByte d ≠ 45 := by
  have hall : ∀ d < 10, digitByte d ≠ 45 := by decide
  exact hall d hd

theorem ofNat_natAbs {n : Int32} :
    (if n.toInt < 0 then -1 else 1) * Int32.ofNat n.toInt.natAbs = n := by
  have hcast : Int32.ofNat n.toInt.natAbs = Int32.ofInt (n.toInt.natAbs : Int) :=
    (Int32.ofInt_eq_ofNat).symm
  rw [hcast]
  split
  · next h =>
      have habs : (n.toInt.natAbs : Int) = -n.toInt := by omega
      rw [habs, Int32.ofInt_neg, Int32.ofInt_toInt, Int32.neg_mul, Int32.one_mul, Int32.neg_neg]
  · next h =>
      have habs : (n.toInt.natAbs : Int) = n.toInt := by omega
      rw [habs, Int32.ofInt_toInt, Int32.one_mul]

/-- `atoi` reads the numeral of every number, the least one included. -/
theorem atoi_numeral {n : Int32} (hs : StringAt str 0 (numeral n.toInt))
    (hsize : (numeral n.toInt).length < size) : atoi size str = some n := by
  have hds : ∀ d ∈ (lowDigits n.toInt.natAbs).reverse, d < 10 := fun d hd =>
    lowDigits_lt_ten (List.mem_reverse.1 hd)
  have hzero : (0 : Int32) = Int32.ofNat 0 := rfl
  rw [numeral, decimal] at hs hsize
  rw [List.length_append, List.length_map] at hsize
  have hvalue := ofNat_natAbs (n := n)
  unfold atoi
  by_cases hneg : n.toInt < 0
  · rw [signBytes, if_pos hneg] at hs hsize
    obtain ⟨hminus, -, hs⟩ := hs
    have hroom : (lowDigits n.toInt.natAbs).reverse.length < size - 1 := by
      rw [List.length_singleton] at hsize
      omega
    rw [if_pos hneg] at hvalue
    rw [if_pos hminus, hzero, atoiFrom_eq hds hs hroom, readDigits_lowDigits, Option.map_some,
      hvalue]
  · rw [signBytes, if_neg hneg, List.nil_append] at hs
    rw [signBytes, if_neg hneg, List.length_nil, Nat.zero_add] at hsize
    have hfirst : str 0 ≠ 45 := by
      -- the numeral starts with a digit
      rcases hrev : (lowDigits n.toInt.natAbs).reverse with _ | ⟨d, ds⟩
      · exact absurd (List.reverse_eq_nil_iff.1 hrev) (lowDigits_ne_nil _)
      · rw [hrev] at hs hds
        rw [hs.1]
        exact digitByte_ne_minus (hds d List.mem_cons_self)
    rw [if_neg hneg] at hvalue
    rw [if_neg hfirst, hzero, atoiFrom_eq hds hs hsize, readDigits_lowDigits, Option.map_some,
      hvalue]

/-! ## The least number -/

/-- The least number is its own negation, and the digit loop stops after one round: `-8 + '0'`
is the character `(`. -/
theorem itoaFrom_least :
    itoaFrom (room + 1) i Int32.minValue str = some (i + 1, Function.update str i 40) := by
  have hchar : charOf (Int32.minValue % 10 + 48) = 40 := by decide
  have hstop : ¬ Int32.minValue / 10 > 0 := by decide
  simp only [itoaFrom, hchar, hstop, if_false]

/-- The least number is written as the two characters `-(`. -/
theorem itoa_least (hsize : 3 ≤ size) :
    ∃ str', itoa size Int32.minValue str = some str' ∧ StringAt str' 0 [45, 40] := by
  have hneg : (if Int32.minValue < 0 then -Int32.minValue else Int32.minValue) =
      Int32.minValue := by decide
  have hsign : signBytes Int32.minValue.toInt = [45] := by decide
  obtain ⟨room, rfl⟩ := Nat.exists_eq_add_one_of_ne_zero (Nat.ne_zero_of_lt hsize)
  have hdigit : BytesAt (Function.update str 0 40) 0 [40] := ⟨Function.update_self _ _ _, trivial⟩
  obtain ⟨s₁, hput, hbytes, -⟩ := @putSign_eq _ (room + 1) Int32.minValue _ hdigit
    (by simp only [List.length_singleton]; omega)
  rw [hsign] at hput hbytes
  obtain ⟨s₂, hstore, hstring, -⟩ := @store_zero _ (room + 1) _ hbytes (by simp) hsize
  obtain ⟨s₃, hreverse, hround, -⟩ := @reverse_eq _ _ (room + 1) hstring hsize
  refine ⟨s₃, ?_, hround⟩
  rw [itoa, hneg, itoaFrom_least]
  simp only [Option.bind_eq_bind, Option.bind_some]
  rw [List.length_singleton] at hput
  simp only [Nat.zero_add, hput, Option.bind_some, hstore]
  exact hreverse

/-- No numeral ends in the character `(`. -/
theorem not_canonical_least : ¬ Canonical Int32.minValue.toInt [45, 40] := by
  rintro ⟨ds, -, hds, -, -, heq⟩
  have hsign : signBytes Int32.minValue.toInt = [45] := by decide
  rw [hsign, List.singleton_append, List.cons.injEq] at heq
  rcases ds with _ | ⟨d, ds⟩
  · cases heq.2
  · have hd := hds d List.mem_cons_self
    have hchar : (40 : UInt8) = digitByte d := (List.cons.injEq _ _ _ _ ▸ heq.2).1
    have htoNat := toNat_digitByte hd
    rw [← hchar] at htoNat
    exact absurd htoNat (by simp; omega)

/-- **Every number but the least survives the round trip.**  In a buffer of at least 12
bytes, `itoa` writes the canonical numeral of a number, of at most 11 characters, leaves the
bytes behind the first 12 alone, and `atoi` reads the number back, if and only if the number
is not the least one. -/
theorem itoa_atoi_iff (n : Int32) (str : Bytes) {size : Nat} (hsize : 12 ≤ size) :
    (∃ str' s, itoa size n str = some str' ∧ StringAt str' 0 s ∧ Canonical n.toInt s ∧
        s.length ≤ 11 ∧ (∀ t ≥ 12, str' t = str t) ∧ atoi size str' = some n) ↔
      n ≠ Int32.minValue := by
  constructor
  · rintro ⟨str', s, hitoa, hs, hcanonical, -⟩ rfl
    obtain ⟨str'', hleast, hs'⟩ := @itoa_least str size (by omega)
    rw [hleast] at hitoa
    cases hitoa
    rw [hs.unique hs'] at hcanonical
    exact not_canonical_least hcanonical
  · intro hn
    have hlen := length_numeral_le hn
    obtain ⟨str', hitoa, hs, hrest⟩ := @itoa_eq str size n hn hsize
    exact ⟨str', numeral n.toInt, hitoa, hs, canonical_numeral n.toInt, hlen, hrest,
      atoi_numeral hs (by omega)⟩

/-- -1337 in a buffer of 16 bytes. -/
theorem itoa_atoi_iff_leet :
    (∃ str' s, itoa 16 (-1337) (fun _ => 0) = some str' ∧ StringAt str' 0 s ∧
        Canonical (-1337 : Int32).toInt s ∧ s.length ≤ 11 ∧ (∀ t ≥ 12, str' t = 0) ∧
        atoi 16 str' = some (-1337)) ↔
      (-1337 : Int32) ≠ Int32.minValue :=
  itoa_atoi_iff (-1337) (fun _ => 0) (by norm_num)

/-- The least number comes back as 0. -/
theorem itoa_atoi_least :
    (itoa 16 Int32.minValue fun _ => 0).bind (atoi 16) = some 0 ∧
      ¬ ∃ str' s, itoa 16 Int32.minValue (fun _ => 0) = some str' ∧ StringAt str' 0 s ∧
        Canonical Int32.minValue.toInt s ∧ s.length ≤ 11 ∧ atoi 16 str' = some Int32.minValue := by
  have hzero : (itoa 16 Int32.minValue fun _ => 0).bind (atoi 16) = some 0 := by decide
  refine ⟨hzero, ?_⟩
  rintro ⟨str', s, hitoa, -, -, -, hatoi⟩
  rw [hitoa, Option.bind_some, hatoi] at hzero
  exact absurd hzero (by decide)

end Itoa

end BenmoshOS.Klib
