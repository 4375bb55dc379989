import Mathlib.Data.List.GetD
import Mathlib.Data.List.TakeWhile
import BenmoshOS.Fat16.Directory

/-!
# FAT16: the records of a new entry and the names they stand for

* `u16_lfnRecord`, `bufferAfter_lfnRecords` — the long-name codec: scanning the
  fragments written for a name puts the name into the buffer and leaves the bytes
  behind the fragments as they were.
* `isLfn_lfnRecord`, `isEntry_sfnRecord` — what the records of a new entry are to a
  scan.
* `matchFrom_iff`, `matchSfn_iff` — the comparisons of the driver as equality of names
  up to ASCII case.
-/

namespace BenmoshOS

namespace Fat16

/-! ## Long-name records -/

theorem charOffset_lt {i j : Nat} (hij : i < j) (hj : j < 13) :
    charOffset i + 1 < charOffset j := by
  unfold charOffset
  split_ifs <;> omega

/-- Writing the first `n` units of a fragment. -/
theorem foldl_setU16 (header : Record) (unit : Nat → Nat) : ∀ n, n ≤ 13 →
    (∀ j, j < n → u16 ((List.range n).foldl (fun r j => setU16 r (charOffset j) (unit j)) header)
      (charOffset j) = unit j % 65536) ∧
    (∀ k, (∀ j, j < n → k ≠ charOffset j ∧ k ≠ charOffset j + 1) →
      (List.range n).foldl (fun r j => setU16 r (charOffset j) (unit j)) header k = header k) := by
  intro n
  induction n with
  | zero => exact fun _ => ⟨fun j hj => absurd hj (Nat.not_lt_zero j), fun k _ => rfl⟩
  | succ n ih =>
      intro hn
      obtain ⟨hunits, hrest⟩ := ih (by omega)
      simp only [List.range_succ, List.foldl_append, List.foldl_cons, List.foldl_nil]
      refine ⟨fun j hj => ?_, fun k hk => ?_⟩
      · by_cases heq : j = n
        · rw [heq, u16_setU16_self]
        · rw [u16_setU16_of_ne (Or.inr (charOffset_lt (by omega) (by omega))),
            hunits j (by omega)]
      · rw [setU16_of_ne (hk n (by omega)).1 (hk n (by omega)).2, hrest k fun j hj =>
          hk j (by omega)]

section Fragment

variable {name : Name} {chksum : UInt8} {idx : Nat} {last : Bool}

theorem encodeUnit_lt (name : Name) (pos : Nat) : encodeUnit name pos < 65536 := by
  have := (name.getD pos 0).toNat_lt
  unfold encodeUnit
  dsimp only
  split_ifs <;> omega

theorem u16_lfnRecord {j : Nat} (hj : j < 13) :
    u16 (lfnRecord name chksum idx last) (charOffset j) =
      encodeUnit name ((idx - 1) * 13 + j) := by
  unfold lfnRecord
  rw [(foldl_setU16 _ (fun j => encodeUnit name ((idx - 1) * 13 + j)) 13 (le_refl _)).1 j hj]
  exact Nat.mod_eq_of_lt (encodeUnit_lt _ _)

/-- The bytes of a fragment that hold no character. -/
theorem lfnRecord_of_not_unit {k : Nat} (hk : k = 0 ∨ (10 < k ∧ k < 14) ∨ k = 26 ∨ k = 27 ∨ 32 ≤ k) :
    lfnRecord name chksum idx last k = if k = 13 then chksum else if k = 11 then attrLfn else
      if k = 0 then UInt8.ofNat idx ||| (if last then 0x40 else 0) else 0 := by
  unfold lfnRecord
  rw [(foldl_setU16 _ (fun j => encodeUnit name ((idx - 1) * 13 + j)) 13 (le_refl _)).2 k]
  · simp only [setByte]
  · intro j hj
    unfold charOffset
    split_ifs <;> omega

theorem lfnRecord_zero : lfnRecord name chksum idx last 0 =
    UInt8.ofNat idx ||| (if last then 0x40 else 0) := by
  rw [lfnRecord_of_not_unit (Or.inl rfl)]
  rfl

theorem attributes_lfnRecord : (lfnRecord name chksum idx last).attributes = attrLfn := by
  unfold Record.attributes
  rw [lfnRecord_of_not_unit (by omega)]
  rfl

theorem clipped_lfnRecord : (lfnRecord name chksum idx last).Clipped := by
  intro k hk
  rw [lfnRecord_of_not_unit (by omega), if_neg (by omega), if_neg (by omega), if_neg (by omega)]

/-- The sequence number survives the mark of the last fragment. -/
theorem sequence_lfnRecord (h : idx ≤ 20) :
    (lfnRecord name chksum idx last 0 &&& 0x1F).toNat = idx := by
  rw [lfnRecord_zero]
  have : ∀ i < 21, ∀ l : Bool,
      ((UInt8.ofNat i ||| (if l then 0x40 else 0)) &&& 0x1F).toNat = i := by decide
  exact this idx (by omega) last

theorem isLfn_lfnRecord (name : Name) (chksum : UInt8) (last : Bool) (h₁ : 1 ≤ idx) (h₂ : idx ≤ 20) :
    (lfnRecord name chksum idx last).IsLfn := by
  refine ⟨?_, attributes_lfnRecord⟩
  have : ∀ i < 21, 1 ≤ i → ∀ l : Bool,
      UInt8.ofNat i ||| (if l then 0x40 else 0) ≠ 0 ∧
      UInt8.ofNat i ||| (if l then 0x40 else 0) ≠ 0xE5 := by decide
  rintro (h | h)
  · rw [lfnRecord_zero] at h
    exact (this idx (by omega) h₁ last).1 h
  · rw [lfnRecord_zero] at h
    exact (this idx (by omega) h₁ last).2 h

theorem flagFree_lfnRecord (h : name.length ≤ 255) (hidx : idx ≤ 20) :
    FlagFree (lfnRecord name chksum idx last) := by
  intro _ h20 j h9 h13
  rw [sequence_lfnRecord hidx] at h20
  rw [u16_lfnRecord h13, h20, encodeUnit, if_neg (by omega), if_neg (by omega)]
  rfl

end Fragment

/-- A name of 7-bit characters. -/
def Ascii (name : Name) : Prop := ∀ c ∈ name, c ≠ 0 ∧ c < 0x80

instance (name : Name) : Decidable (Ascii name) :=
  List.decidableBAll (fun c => c ≠ 0 ∧ c < 0x80) name

theorem decodeUnit_encodeUnit {name : Name} (h : Ascii name) (pos : Nat) :
    decodeUnit (encodeUnit name pos) = name.getD pos 0 := by
  unfold encodeUnit
  by_cases hpos : pos < name.length
  · have hmem : name.getD pos 0 ∈ name := by
      rw [List.getD_eq_getElem _ _ hpos]
      exact List.getElem_mem hpos
    have hlt : (name.getD pos 0).toNat < 0x80 := UInt8.lt_iff_toNat_lt.1 (h _ hmem).2
    simp only [hpos, if_true, hlt]
    unfold decodeUnit
    rw [if_neg (by omega), UInt8.ofNat_toNat]
  · rw [if_neg hpos, List.getD_eq_default _ _ (by omega)]
    split_ifs <;> rfl

/-- The fragments of a name in the order in which they are written. -/
def lfnRecords (name : Name) (chksum : UInt8) : List Record :=
  (List.range (lfnCount name)).map fun i => lfnRecord name chksum (lfnCount name - i) (i = 0)

theorem newRecords_eq (name : Name) (sfn : List UInt8) (attributes : UInt8) (cluster size : Nat) :
    newRecords name sfn attributes cluster size =
      lfnRecords name (lfnChecksum sfn) ++ [sfnRecord sfn attributes cluster size] := rfl

@[simp] theorem length_lfnRecords (name : Name) (chksum : UInt8) :
    (lfnRecords name chksum).length = lfnCount name := by
  simp [lfnRecords]

theorem lfnCount_le {name : Name} (h : name.length ≤ 255) : lfnCount name ≤ 20 := by
  unfold lfnCount
  omega

theorem mem_lfnRecords {name : Name} {chksum : UInt8} {r : Record}
    (h : r ∈ lfnRecords name chksum) :
    ∃ idx last, 1 ≤ idx ∧ idx ≤ lfnCount name ∧ r = lfnRecord name chksum idx last := by
  obtain ⟨i, hi, rfl⟩ := List.mem_map.1 h
  have := List.mem_range.1 hi
  exact ⟨lfnCount name - i, _, by omega, by omega, rfl⟩

/-- A fragment of a name puts its 13 characters into the buffer. -/
theorem stepBuffer_lfnRecord {name : Name} (h : Ascii name) {chksum : UInt8} {idx : Nat}
    {last : Bool} (h₁ : 1 ≤ idx) (h₂ : idx ≤ 20) (b : Nat → UInt8) (k : Nat) :
    stepBuffer b (lfnRecord name chksum idx last) k =
      if (idx - 1) * 13 ≤ k ∧ k < (idx - 1) * 13 + 13 then name.getD k 0 else b k := by
  have hlfn := isLfn_lfnRecord name chksum last h₁ h₂
  have hlen : ((List.range 13).map fun j =>
      decodeUnit (u16 (lfnRecord name chksum idx last) (charOffset j))).length = 13 := by simp
  rw [stepBuffer, if_neg fun hf => hlfn.1 (Or.inr hf), if_pos hlfn.2, putFragment,
    sequence_lfnRecord h₂]
  simp only [h₁, h₂, and_self, if_true]
  by_cases hk : (idx - 1) * 13 ≤ k ∧ k < (idx - 1) * 13 + 13
  · obtain ⟨j, rfl⟩ : ∃ j, k = (idx - 1) * 13 + j := ⟨k - (idx - 1) * 13, by omega⟩
    have hj : j < 13 := by omega
    rw [if_pos hk, patch_add (by rw [hlen]; exact hj)]
    simp only [List.getD_eq_getElem?_getD, List.getElem?_map, List.getElem?_range hj,
      Option.map_some, Option.getD_some]
    rw [u16_lfnRecord hj, decodeUnit_encodeUnit h, List.getD_eq_getElem?_getD]
  · rw [if_neg hk, patch_of_not_mem (by rw [hlen]; omega)]

/-- **The long-name codec.**  After the fragments of a name the buffer holds the name,
zeroes up to the end of the last fragment, and its old bytes behind that. -/
theorem bufferAfter_lfnRecords {name : Name} (h : Ascii name) (hlen : name.length ≤ 255)
    (chksum : UInt8) (b : Nat → UInt8) (k : Nat) :
    bufferAfter b (lfnRecords name chksum) k =
      if k < 13 * lfnCount name then name.getD k 0 else b k := by
  have hcount := lfnCount_le hlen
  -- the fragments are written from the last one to the first one
  have hfrom : ∀ m, m ≤ lfnCount name →
      bufferAfter b ((List.range m).map fun i =>
        lfnRecord name chksum (lfnCount name - i) (i = 0)) k =
      if 13 * (lfnCount name - m) ≤ k ∧ k < 13 * lfnCount name then name.getD k 0 else b k := by
    intro m
    induction m with
    | zero =>
        intro _
        rw [if_neg (by omega)]
        rfl
    | succ m ih =>
        intro hm
        rw [List.range_succ, List.map_append, bufferAfter, List.foldl_append]
        change stepBuffer (bufferAfter b _) _ k = _
        rw [stepBuffer_lfnRecord h (by omega) (by omega), ih (by omega)]
        by_cases hk : (lfnCount name - m - 1) * 13 ≤ k ∧ k < (lfnCount name - m - 1) * 13 + 13
        · rw [if_pos hk, if_pos (by omega)]
        · rw [if_neg hk]
          refine if_congr ?_ rfl rfl
          omega
  rw [lfnRecords, hfrom (lfnCount name) (le_refl _), Nat.sub_self]
  refine if_congr ?_ rfl rfl
  omega

/-! ## Short-name records -/

section ShortName

variable {sfn : List UInt8} {attributes : UInt8} {cluster size : Nat}

theorem sfnRecord_of_lt (hsfn : sfn.length = 11) {k : Nat} (hk : k < 11) :
    sfnRecord sfn attributes cluster size k = sfn.getD k 0 := by
  rw [sfnRecord, Record.withChain_of_lt (by omega), setByte, if_neg (by omega), patch,
    if_pos (by omega), Nat.sub_zero]

theorem attributes_sfnRecord : (sfnRecord sfn attributes cluster size).attributes = attributes := by
  rw [sfnRecord, Record.attributes_withChain, Record.attributes, setByte, if_pos rfl]

theorem clipped_sfnRecord (hsfn : sfn.length = 11) :
    (sfnRecord sfn attributes cluster size).Clipped := by
  refine Record.Clipped.withChain fun k hk => ?_
  rw [setByte, if_neg (by omega), patch_of_not_mem (by omega)]

theorem startingCluster_sfnRecord (h : cluster < 65536) :
    (sfnRecord sfn attributes cluster size).startingCluster = cluster :=
  Record.startingCluster_withChain h

theorem fileSize_sfnRecord (h : size < 2 ^ 32) :
    (sfnRecord sfn attributes cluster size).fileSize = size :=
  Record.fileSize_withChain h

theorem getD_slice {b : Nat → UInt8} {i n k : Nat} (hk : k < n) :
    (slice b i n).getD k 0 = b (i + k) := by
  rw [List.getD_eq_getElem _ _ (by simpa [slice] using hk)]
  simp [slice]

theorem slice_sfnRecord (hsfn : sfn.length = 11) :
    slice (sfnRecord sfn attributes cluster size) 0 8 = sfn.take 8 ∧
      slice (sfnRecord sfn attributes cluster size) 8 3 = sfn.drop 8 := by
  constructor
  · apply List.ext_getElem
    · simp [slice, hsfn]
    · intro k hk hk'
      have hk8 : k < 8 := by simpa [slice] using hk
      simp only [slice, List.getElem_map, List.getElem_range, List.getElem_take]
      rw [sfnRecord_of_lt hsfn (by omega), Nat.zero_add, List.getD_eq_getElem _ _ (by omega)]
  · apply List.ext_getElem
    · simp [slice, hsfn]
    · intro k hk hk'
      have hk3 : k < 3 := by simpa [slice] using hk
      simp only [slice, List.getElem_map, List.getElem_range, List.getElem_drop]
      rw [sfnRecord_of_lt hsfn (by omega), List.getD_eq_getElem _ _ (by omega)]

theorem isEntry_sfnRecord (hsfn : sfn.length = 11) (h₀ : sfn.getD 0 0 ≠ 0)
    (h₅ : sfn.getD 0 0 ≠ 0xE5) (hlfn : attributes ≠ attrLfn) (hlabel : attributes ≠ attrVolumeId) :
    (sfnRecord sfn attributes cluster size).IsEntry := by
  refine ⟨?_, by rwa [attributes_sfnRecord], by rwa [attributes_sfnRecord]⟩
  rintro (h | h)
  · exact h₀ (by rwa [sfnRecord_of_lt hsfn (by omega)] at h)
  · exact h₅ (by rwa [sfnRecord_of_lt hsfn (by omega)] at h)

end ShortName

theorem length_padTo {n : Nat} {l : List UInt8} (h : l.length ≤ n) : (padTo n l).length = n := by
  simp only [padTo, List.length_append, List.length_replicate]
  omega

theorem length_numericTail (attempt : Nat) :
    2 ≤ (numericTail attempt).length ∧ (numericTail attempt).length ≤ 4 := by
  unfold numericTail
  split_ifs <;> simp

theorem length_extensionOf (name : Name) : (extensionOf name).length ≤ 3 := by
  unfold extensionOf
  split
  · simp only [List.length_map, List.length_take]
    omega
  · simp

theorem length_generateShortName (name : Name) (attempt : Nat) :
    (generateShortName name attempt).length = 11 := by
  have htail := length_numericTail attempt
  have hbase : (baseName name).length ≤ 8 := by
    simp only [baseName, List.length_map, List.length_take]
    omega
  unfold generateShortName
  rw [List.length_append, length_padTo (length_extensionOf name), length_padTo]
  simp only [List.length_append, List.length_take]
  split_ifs <;> omega

/-- A short name begins with a character of the long one in upper case or with `~`. -/
theorem head_generateShortName_cases (name : Name) (attempt : Nat) :
    (generateShortName name attempt).getD 0 0 = tilde ∨
      ∃ c ∈ name, c ≠ dot ∧ (generateShortName name attempt).getD 0 0 = upper c := by
  have htail : ∃ t, numericTail attempt = tilde :: t := by
    unfold numericTail
    split_ifs <;> exact ⟨_, rfl⟩
  have hlen := length_numericTail attempt
  unfold generateShortName
  obtain ⟨t, ht⟩ := htail
  cases hb : baseName name with
  | nil =>
      left
      simp only [ht, List.take_nil, List.nil_append, padTo, List.cons_append, List.getD_cons_zero]
  | cons c cs =>
      right
      -- the tail leaves room for at least one character
      have hkeep : ∃ m, (if (c :: cs).length + (numericTail attempt).length > 8
          then 8 - (numericTail attempt).length else (c :: cs).length) = m + 1 := by
        split_ifs
        · exact ⟨7 - (numericTail attempt).length, by omega⟩
        · exact ⟨cs.length, rfl⟩
      obtain ⟨m, hm⟩ := hkeep
      have hc : c ∈ baseName name := by rw [hb]; exact List.mem_cons_self ..
      simp only [baseName, List.mem_map] at hc
      obtain ⟨c', hc', rfl⟩ := hc
      have hfilter := List.mem_of_mem_take hc'
      have htw := (List.mem_filter.1 hfilter).1
      have hdot : c' ≠ dot := by simpa using List.mem_takeWhile_imp htw
      refine ⟨c', (List.takeWhile_prefix _).subset htw, hdot, ?_⟩
      simp only [hm, List.take_succ_cons, padTo, List.cons_append, List.getD_cons_zero]

theorem head_generateShortName {name : Name} (h : Ascii name) (attempt : Nat) :
    (generateShortName name attempt).getD 0 0 ≠ 0 ∧
      (generateShortName name attempt).getD 0 0 ≠ 0xE5 ∧
      (generateShortName name attempt).getD 0 0 ≠ dot := by
  have hchar : ∀ c : UInt8, (c ≠ 0 ∧ c < 0x80) ∧ c ≠ dot →
      upper c ≠ 0 ∧ upper c ≠ 0xE5 ∧ upper c ≠ dot := by
    intro c hc
    unfold upper dot at *
    grind
  rcases head_generateShortName_cases name attempt with hhead | ⟨c, hc, hdot, hhead⟩
  · rw [hhead]
    decide
  · rw [hhead]
    exact hchar c ⟨h c hc, hdot⟩

/-- The short name of a name without zeroes does not begin with one. -/
theorem head_generateShortName_ne_zero {name : Name} (h : (0 : UInt8) ∉ name) (attempt : Nat) :
    (generateShortName name attempt).getD 0 0 ≠ 0 := by
  rcases head_generateShortName_cases name attempt with hhead | ⟨c, hc, -, hhead⟩
  · rw [hhead]
    decide
  · rw [hhead]
    have hne : c ≠ 0 := fun hzero => h (hzero ▸ hc)
    unfold upper
    grind

/-! ## Comparison of names -/

/-- Equality of names up to ASCII case. -/
def SameName (a b : Name) : Prop := a.map lower = b.map lower

theorem lower_eq_zero (c : UInt8) : lower c = 0 ↔ c = 0 := by
  unfold lower
  grind

theorem lower_lower (c : UInt8) : lower (lower c) = lower c := by
  unfold lower
  grind

theorem matchFrom_iff {buf : Nat → UInt8} {target : Name} : ∀ i, matchFrom buf i target = true ↔
    (∀ j, j < target.length → buf (i + j) ≠ 0 ∧ lower (buf (i + j)) = lower (target.getD j 0)) ∧
      buf (i + target.length) = 0 := by
  induction target with
  | nil => intro i; simp [matchFrom]
  | cons c target ih =>
      intro i
      unfold matchFrom
      by_cases h₀ : buf i = 0
      · rw [if_pos h₀]
        refine ⟨fun h => by simp at h, fun h => absurd h₀ (h.1 0 (by simp)).1⟩
      · rw [if_neg h₀]
        by_cases hc : lower (buf i) = lower c
        · rw [if_neg (by simpa using hc), ih (i + 1), List.length_cons, Nat.add_assoc,
            Nat.add_comm 1]
          refine and_congr_left' ⟨fun h j hj => ?_, fun h j hj => ?_⟩
          · cases j with
            | zero => exact ⟨h₀, hc⟩
            | succ j =>
                have := h j (by omega)
                rwa [Nat.add_assoc, Nat.add_comm 1] at this
          · have := h (j + 1) (by omega)
            rwa [Nat.add_assoc, Nat.add_comm 1]
        · rw [if_pos hc]
          refine ⟨fun h => by simp at h, fun h => absurd (h.1 0 (by simp)).2 hc⟩

theorem sameName_iff {a b : Name} : SameName a b ↔ a.length = b.length ∧
    ∀ j, j < a.length → lower (a.getD j 0) = lower (b.getD j 0) := by
  unfold SameName
  constructor
  · intro h
    have hlen : a.length = b.length := by simpa using congrArg List.length h
    refine ⟨hlen, fun j hj => ?_⟩
    have := congrArg (fun l => l[j]?) h
    simp only [List.getElem?_map] at this
    rw [List.getD_eq_getElem _ _ hj, List.getD_eq_getElem _ _ (hlen ▸ hj)]
    simpa [List.getElem?_eq_getElem hj, List.getElem?_eq_getElem (hlen ▸ hj)] using this
  · rintro ⟨hlen, h⟩
    apply List.ext_getElem
    · simpa using hlen
    · intro j hj hj'
      have hja : j < a.length := by simpa using hj
      have := h j hja
      rw [List.getD_eq_getElem _ _ hja, List.getD_eq_getElem _ _ (hlen ▸ hja)] at this
      simpa using this

/-- A buffer that holds a name matches the names that are the same up to case. -/
theorem matchFrom_holds {buf : Nat → UInt8} {name n : Name}
    (hbuf : ∀ k, k ≤ name.length → buf k = name.getD k 0) (h₀ : (0 : UInt8) ∉ name) :
    matchFrom buf 0 n = true ↔ SameName n name := by
  have hne : ∀ k, k < name.length → buf k ≠ 0 := by
    intro k hk hz
    rw [hbuf k (by omega), List.getD_eq_getElem _ _ hk] at hz
    exact h₀ (hz ▸ List.getElem_mem hk)
  have hend : buf name.length = 0 := by
    rw [hbuf _ (le_refl _), List.getD_eq_default _ _ (le_refl _)]
  rw [matchFrom_iff, sameName_iff]
  simp only [Nat.zero_add]
  constructor
  · rintro ⟨hall, hz⟩
    have hlen : n.length = name.length := by
      rcases Nat.lt_trichotomy n.length name.length with hlt | heq | hgt
      · exact absurd hz (hne _ hlt)
      · exact heq
      · exact absurd hend (hall _ hgt).1
    refine ⟨hlen, fun j hj => ?_⟩
    rw [← hbuf j (by omega)]
    exact (hall j hj).2.symm
  · rintro ⟨hlen, hall⟩
    refine ⟨fun j hj => ⟨hne j (by omega), ?_⟩, by rw [hlen, hend]⟩
    rw [hbuf j (by omega)]
    exact (hall j hj).symm

theorem zero_not_mem_cString (l : List UInt8) : (0 : UInt8) ∉ cString l := by
  intro h
  simpa using List.mem_takeWhile_imp h

/-- A buffer that holds a list matches the C string at its beginning. -/
theorem getD_cString (l : List UInt8) {k : Nat} (hk : k ≤ (cString l).length) :
    l.getD k 0 = (cString l).getD k 0 := by
  induction l generalizing k with
  | nil => rfl
  | cons c l ih =>
      unfold cString at hk ⊢
      by_cases hc : c = 0
      · rw [List.takeWhile_cons_of_neg (by simpa using hc)] at hk ⊢
        obtain rfl : k = 0 := by simpa using hk
        simp [hc]
      · rw [List.takeWhile_cons_of_pos (by simpa using hc)] at hk ⊢
        cases k with
        | zero => rfl
        | succ k =>
            rw [List.length_cons] at hk
            rw [List.getD_cons_succ, List.getD_cons_succ]
            exact ih (Nat.le_of_succ_le_succ hk)

theorem cString_map_lower (l : List UInt8) : cString (l.map lower) = (cString l).map lower := by
  unfold cString
  rw [List.takeWhile_map]
  congr 1
  congr 1
  funext c
  simp [lower_eq_zero]

/-- **Short names.**  `match_sfn` compares with the dotted short name up to case. -/
theorem matchSfn_iff {e : Record} {n : Name} :
    matchSfn e n = true ↔ SameName n (cString (dotted (slice e 0 8) (slice e 8 3))) := by
  unfold matchSfn
  dsimp only
  generalize dotted (slice e 0 8) (slice e 8 3) = l
  rw [matchFrom_holds (fun k hk => getD_cString (l.map lower) hk) (zero_not_mem_cString _),
    cString_map_lower]
  unfold SameName
  rw [List.map_map]
  have : lower ∘ lower = lower := funext lower_lower
  rw [this]

theorem matchSfn_sfnRecord {sfn : List UInt8} (hsfn : sfn.length = 11) {attributes : UInt8}
    {cluster size : Nat} {n : Name} :
    matchSfn (sfnRecord sfn attributes cluster size) n = true ↔ SameName n (tempTarget sfn) := by
  rw [matchSfn_iff, (slice_sfnRecord hsfn).1, (slice_sfnRecord hsfn).2]
  rfl

theorem matchFrom_congr {buf : Nat → UInt8} {n n' : Name} (h : SameName n n') (i : Nat) :
    matchFrom buf i n = matchFrom buf i n' := by
  obtain ⟨hlen, hall⟩ := sameName_iff.1 h
  rw [Bool.eq_iff_iff, matchFrom_iff, matchFrom_iff, hlen]
  refine and_congr_left' (forall_congr' fun j => imp_congr_right fun hj => ?_)
  rw [hall j (by omega)]

/-- Lookups do not see the case of letters. -/
theorem Visit.matches_congr {n n' : Name} (h : SameName n n') (v : Visit) :
    v.Matches n ↔ v.Matches n' := by
  unfold Visit.Matches
  rw [matchFrom_congr h]
  unfold matchSfn
  rw [matchFrom_congr h]

/-- The bytes left in the buffer by earlier fragments do not lengthen the name: they
matter only when the name fills its fragments. -/
def Terminated (b : Nat → UInt8) (name : Name) : Prop := 13 ∣ name.length → b name.length = 0

/-- **What a new entry is found by**: its long name and its short name. -/
theorem matches_new {name n : Name} (h : Ascii name) (hne : name ≠ []) (hlen : name.length ≤ 255)
    {b : Nat → UInt8} (hb : Terminated b name) {chksum : UInt8} {sfn : List UInt8}
    (hsfn : sfn.length = 11) {attributes : UInt8} {cluster size pos : Nat} :
    Visit.Matches n ⟨pos, bufferAfter b (lfnRecords name chksum),
      sfnRecord sfn attributes cluster size⟩ ↔ SameName n name ∨ SameName n (tempTarget sfn) := by
  have hpos : 0 < name.length := List.length_pos_iff.2 hne
  have hcount : name.length ≤ 13 * lfnCount name := by
    unfold lfnCount
    omega
  have hzero : (0 : UInt8) ∉ name := fun hz => (h 0 hz).1 rfl
  have hbuf : ∀ k, k ≤ name.length →
      bufferAfter b (lfnRecords name chksum) k = name.getD k 0 := by
    intro k hk
    rw [bufferAfter_lfnRecords h hlen]
    by_cases hlt : k < 13 * lfnCount name
    · rw [if_pos hlt]
    · have heq : k = name.length := by omega
      rw [if_neg hlt, List.getD_eq_default _ _ (by omega), heq]
      exact hb ⟨lfnCount name, by omega⟩
  have hfirst : bufferAfter b (lfnRecords name chksum) 0 ≠ 0 := by
    rw [hbuf 0 (by omega), List.getD_eq_getElem _ _ hpos]
    exact fun hz => hzero (hz ▸ List.getElem_mem hpos)
  unfold Visit.Matches
  rw [matchFrom_holds hbuf hzero, matchSfn_sfnRecord hsfn]
  simp [hfirst]

end Fat16

end BenmoshOS
