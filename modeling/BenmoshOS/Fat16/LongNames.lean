import BenmoshOS.Fat16.Scan

/-!
# FAT16: long names in arbitrary directories

`find_file_callback` and `list_dir_callback` assemble long names in a buffer of 256 bytes that
they carry from record to record.

* `lfn_round_trip` — the fragments of a name put the name into an empty buffer.
* `buffer_safe_iff` — the buffer is left, by either visitor, exactly when there is a fragment
  with the sequence number 20.
* `listing_agrees_iff` — the names that a listing prints are those that lookups assemble, unless
  an earlier name shows behind the end of a later one.
-/

namespace BenmoshOS

namespace Fat16

variable {base p : Nat} {b : Nat → UInt8} {r : Record} {rs : List Record} {target : Name}

/-! ## The codec -/

theorem foldl_scanBuffer_lfns {ls : List Record} (hls : ∀ r ∈ ls, r.IsLfn) (b : Nat → UInt8) :
    ls.foldl scanBuffer b = ls.foldl putFragment b := by
  induction ls generalizing b with
  | nil => rfl
  | cons r ls ih =>
      rw [List.foldl_cons, List.foldl_cons, scanBuffer_lfn (hls r (List.mem_cons_self ..)),
        ih fun r' hr' => hls r' (List.mem_cons_of_mem _ hr')]

theorem bufferAfter_lfns {ls : List Record} (hls : ∀ r ∈ ls, r.IsLfn) (b : Nat → UInt8) :
    bufferAfter b ls = ls.foldl putFragment b := by
  induction ls generalizing b with
  | nil => rfl
  | cons r ls ih =>
      have hr := hls r (List.mem_cons_self ..)
      have hstep : stepBuffer b r = putFragment b r := by
        rw [stepBuffer, if_neg fun hf => hr.1 (Or.inr hf), if_pos hr.2]
      rw [bufferAfter, List.foldl_cons, List.foldl_cons, hstep]
      exact ih (fun r' hr' => hls r' (List.mem_cons_of_mem _ hr')) _

theorem isLfn_lfnRecords {name : Name} (hlen : name.length ≤ 255) {chksum : UInt8} :
    ∀ r ∈ lfnRecords name chksum, r.IsLfn := by
  intro r hr
  obtain ⟨idx, last, h₁, h₂, rfl⟩ := mem_lfnRecords hr
  exact isLfn_lfnRecord _ _ _ h₁ (h₂.trans (lfnCount_le hlen))

/-- Fragments do not end a scan. -/
theorem visitList_lfns {ls : List Record} (hls : ∀ r ∈ ls, r.IsLfn) : ∀ (p : Nat) (ctx : FindCtx),
    visitList (findFileCallback target) base ls p ctx =
      (none, ⟨ctx.out, ls.foldl putFragment ctx.lfnBuffer⟩) := by
  induction ls with
  | nil =>
      intro p ctx
      rfl
  | cons r ls ih =>
      intro p ctx
      have hr := hls r (List.mem_cons_self ..)
      have hstep : findFileCallback target (base + p / 16) (p % 16) r ctx =
          (0, ⟨ctx.out, scanBuffer ctx.lfnBuffer r⟩) :=
        findFileCallback_step (fun h₀ => hr.1 (Or.inl h₀)) fun he => absurd hr.2 he.not_lfn
      rw [visitList_go hstep, ih (fun r' hr' => hls r' (List.mem_cons_of_mem _ hr')),
        scanBuffer_lfn hr, List.foldl_cons]

/-- **The long-name codec.**  A scan of the fragments that `fat16_insert_entry` writes for a name
leaves the name in the buffer and zeroes behind it, and no fragment looks like a free slot. -/
theorem lfn_round_trip {name : Name} (h : Ascii name) (hlen : name.length ≤ 255)
    (sfn : List UInt8) (attributes : UInt8) (cluster size : Nat) (target : Name) (base p : Nat) :
    (∃ ctx, visitList (findFileCallback target) base
        (newRecords name sfn attributes cluster size).dropLast p FindCtx.zero = (none, ctx) ∧
      ∀ k, k < 256 → ctx.lfnBuffer k = name.getD k 0) ∧
    ∀ r ∈ (newRecords name sfn attributes cluster size).dropLast, r 0 ≠ 0x00 ∧ r 0 ≠ 0xE5 := by
  rw [newRecords_eq, List.dropLast_concat]
  have hls : ∀ r ∈ lfnRecords name (lfnChecksum sfn), r.IsLfn := isLfn_lfnRecords hlen
  refine ⟨⟨_, visitList_lfns hls p FindCtx.zero, fun k hk => ?_⟩, fun r hr => ?_⟩
  · show (lfnRecords name (lfnChecksum sfn)).foldl putFragment emptyBuffer k = name.getD k 0
    rw [← bufferAfter_lfns hls, bufferAfter_lfnRecords h hlen]
    split
    · rfl
    · rename_i hend
      have : name.length ≤ k := by
        unfold lfnCount at hend
        omega
      rw [List.getD_eq_default _ _ this]
      rfl
  · exact ⟨fun h₀ => (hls r hr).1 (Or.inl h₀), fun h₅ => (hls r hr).1 (Or.inr h₅)⟩

/-- The name `ab`. -/
theorem lfn_round_trip_ab :
    (∃ ctx, visitList (findFileCallback [0x61]) 0
        (newRecords [0x61, 0x62] (generateShortName [0x61, 0x62] 1) attrArchive 0 0).dropLast 0
        FindCtx.zero = (none, ctx) ∧
      ∀ k, k < 256 → ctx.lfnBuffer k = [0x61, 0x62].getD k 0) ∧
    ∀ r ∈ (newRecords [0x61, 0x62] (generateShortName [0x61, 0x62] 1) attrArchive 0 0).dropLast,
      r 0 ≠ 0x00 ∧ r 0 ≠ 0xE5 := by
  refine lfn_round_trip ?_ (by decide) _ _ _ _ _ _ _
  intro c hc
  rcases List.mem_cons.1 hc with rfl | hc
  · decide
  · rw [List.mem_singleton.1 hc]
    decide

/-! ## The bounds of the buffer -/

/-- The indices of the buffer that a fragment is written to. -/
def fragmentIndices (lfn : Record) : List Nat :=
  let sequence := (lfn 0 &&& 0x1F).toNat
  if 1 ≤ sequence ∧ sequence ≤ 20 then List.range' ((sequence - 1) * 13) 13 else []

/-- The indices of the buffer that the comparison with a name reads from index `i` on. -/
def comparedIndices (buf : Nat → UInt8) : Nat → Name → List Nat
  | i, [] => [i]
  | i, c :: target =>
      if buf i = 0 then [i]
      else if lower (buf i) ≠ lower c then [i]
      else i :: comparedIndices buf (i + 1) target

/-- The indices that `find_file_callback` reads and writes at a record. -/
def findIndices (targetName : Name) (b : Nat → UInt8) (entry : Record) : List Nat :=
  if entry 0 = 0x00 then []
  else if entry 0 = 0xE5 then List.range 256
  else if entry.attributes = attrLfn then fragmentIndices entry
  else if entry.attributes ≠ attrVolumeId then
    0 :: (if b 0 ≠ 0 then comparedIndices b 0 targetName else []) ++
      if (b 0 ≠ 0 ∧ matchFrom b 0 targetName) ∨ matchSfn entry targetName then []
      else List.range 256
  else []

/-- The indices that `puts` reads. -/
def putsIndices (b : Nat → UInt8) : List Nat := List.range ((cString (slice b 0 260)).length + 1)

/-- The indices that `list_dir_callback` reads and writes at a record. -/
def listIndices (b : Nat → UInt8) (entry : Record) : List Nat :=
  if entry 0 = 0x00 then []
  else if entry 0 = 0xE5 then [0]
  else if entry.attributes = attrLfn then fragmentIndices entry
  else if entry.attributes ≠ attrVolumeId then
    0 :: (if b 0 ≠ 0 then putsIndices b else []) ++ [0]
  else []

/-- All indices of the buffer that a scan reads and writes. -/
def scanIndices {κ : Type} (touched : (Nat → UInt8) → Record → List Nat) (callback : Visitor κ)
    (buffer : κ → Nat → UInt8) (base : Nat) : List Record → Nat → κ → List Nat
  | [], _, _ => []
  | r :: rs, p, context =>
      let result := callback (base + p / 16) (p % 16) r context
      touched (buffer context) r ++
        if result.1 = 0 then scanIndices touched callback buffer base rs (p + 1) result.2 else []

/-- Both visitors stay in the 256 bytes of the buffer, and the bytes behind it keep their value,
the flag `found` among them. -/
structure BufferSafe (base : Nat) (rs : List Record) (target : Name) : Prop where
  find : ∀ i ∈ scanIndices (findIndices target) (findFileCallback target) FindCtx.lfnBuffer base
    rs 0 FindCtx.zero, i < 256
  list : ∀ i ∈ scanIndices listIndices listDirCallback ListCtx.lfnBuf base rs 0 ListCtx.zero,
    i < 256
  behind : ∀ n k, 256 ≤ k → ((inUse rs).take n).foldl scanBuffer emptyBuffer k = 0 ∧
    ((inUse rs).take n).foldl listBuffer emptyBuffer k = 0

/-- In front of the end mark there is no fragment with the sequence number 20. -/
def NoLastFragment (rs : List Record) : Prop :=
  ∀ r ∈ inUse rs, r.IsLfn → (r 0 &&& 0x1F).toNat ≠ 20

section Indices

theorem mem_fragmentIndices {i : Nat} : i ∈ fragmentIndices r ↔
    1 ≤ (r 0 &&& 0x1F).toNat ∧ (r 0 &&& 0x1F).toNat ≤ 20 ∧
      ((r 0 &&& 0x1F).toNat - 1) * 13 ≤ i ∧ i < ((r 0 &&& 0x1F).toNat - 1) * 13 + 13 := by
  unfold fragmentIndices
  dsimp only
  split
  · rename_i hseq
    rw [List.mem_range'_1]
    exact ⟨fun h => ⟨hseq.1, hseq.2, h⟩, fun h => h.2.2⟩
  · rename_i hseq
    exact ⟨fun h => absurd h (by simp), fun h => absurd ⟨h.1, h.2.1⟩ hseq⟩

/-- A fragment changes no other bytes. -/
theorem putFragment_of_not_mem {k : Nat} (h : k ∉ fragmentIndices r) :
    putFragment b r k = b k := by
  unfold putFragment
  split
  · rename_i hseq
    apply patch_of_not_mem
    rw [List.length_map, List.length_range]
    by_contra hk
    exact h (mem_fragmentIndices.2 ⟨hseq.1, hseq.2, by omega, by omega⟩)
  · rfl

/-- The comparison ends at the first zero byte. -/
theorem comparedIndices_le {i m : Nat} (him : i ≤ m) (hm : b m = 0) :
    ∀ k ∈ comparedIndices b i target, k ≤ m := by
  induction target generalizing i with
  | nil =>
      intro k hk
      rw [List.mem_singleton.1 hk]
      exact him
  | cons c target ih =>
      intro k hk
      unfold comparedIndices at hk
      by_cases h₀ : b i = 0
      · rw [if_pos h₀] at hk
        rw [List.mem_singleton.1 hk]
        exact him
      · rw [if_neg h₀] at hk
        have hlt : i + 1 ≤ m := by
          apply Nat.lt_of_le_of_ne him
          rintro rfl
          exact h₀ hm
        split at hk
        · rw [List.mem_singleton.1 hk]
          exact him
        · rcases List.mem_cons.1 hk with rfl | hk
          · exact him
          · exact ih hlt k hk

theorem length_cString_slice_le (b : Nat → UInt8) (n : Nat) :
    (cString (slice b 0 n)).length ≤ n := by
  have hslice : (slice b 0 n).length = n := by simp [slice]
  calc (cString (slice b 0 n)).length ≤ (slice b 0 n).length := (List.takeWhile_prefix _).length_le
    _ = n := hslice

/-- The characters of the string in a buffer, and the zero behind it. -/
theorem getD_cString_slice {n k : Nat} (hk : k ≤ (cString (slice b 0 n)).length) (hn : k < n) :
    (cString (slice b 0 n)).getD k 0 = b k := by
  rw [← getD_cString _ hk, getD_slice hn, Nat.zero_add]

theorem cString_slice_ne_zero {n k : Nat} (hk : k < (cString (slice b 0 n)).length) : b k ≠ 0 := by
  have hget := getD_cString_slice hk.le (hk.trans_le (length_cString_slice_le b n))
  rw [List.getD_eq_getElem _ _ hk] at hget
  intro hzero
  have hmem : (cString (slice b 0 n))[k] ∈ cString (slice b 0 n) := List.getElem_mem hk
  rw [hget, hzero] at hmem
  exact zero_not_mem_cString _ hmem

theorem putsIndices_le {m : Nat} (hm : b m = 0) : ∀ k ∈ putsIndices b, k ≤ m := by
  intro k hk
  have hlt := List.mem_range.1 hk
  by_contra hgt
  exact cString_slice_ne_zero (n := 260) (by omega : m < _) hm

end Indices

/-- The bytes that only the fragment with the sequence number 20 reaches are zero. -/
def LowBuffer (b : Nat → UInt8) : Prop := ∀ k, 247 ≤ k → b k = 0

/-- The record is no fragment with the sequence number 20. -/
def NotLast (r : Record) : Prop := r.IsLfn → (r 0 &&& 0x1F).toNat ≠ 20

section Low

theorem fragmentIndices_lt (hlfn : r.IsLfn) (hr : NotLast r) : ∀ i ∈ fragmentIndices r, i < 247 := by
  intro i hi
  obtain ⟨-, hle, -, hlt⟩ := mem_fragmentIndices.1 hi
  have hne := hr hlfn
  omega

theorem LowBuffer.putFragment (hb : LowBuffer b) (hlfn : r.IsLfn) (hr : NotLast r) :
    LowBuffer (putFragment b r) := by
  intro k hk
  rw [putFragment_of_not_mem, hb k hk]
  intro hmem
  exact absurd (fragmentIndices_lt hlfn hr k hmem) (by omega)

theorem LowBuffer.scanBuffer (hb : LowBuffer b) (h₀ : r 0 ≠ 0x00) (hr : NotLast r) :
    LowBuffer (scanBuffer b r) := by
  have hclear : LowBuffer (clearBuffer b) := by
    intro k hk
    unfold clearBuffer
    split
    · rfl
    · exact hb k hk
  unfold Fat16.scanBuffer
  split_ifs with h₅ hlfn hlabel
  · exact hclear
  · exact hb.putFragment ⟨fun hf => hf.elim h₀ h₅, hlfn⟩ hr
  · exact hb
  · exact hclear

theorem LowBuffer.listBuffer (hb : LowBuffer b) (h₀ : r 0 ≠ 0x00) (hr : NotLast r) :
    LowBuffer (listBuffer b r) := by
  have hclear : LowBuffer (setByte b 0 0) := by
    intro k hk
    rw [setByte, if_neg (by omega), hb k hk]
  unfold Fat16.listBuffer
  split_ifs with h₅ hlfn hlabel
  · exact hclear
  · exact hb.putFragment ⟨fun hf => hf.elim h₀ h₅, hlfn⟩ hr
  · exact hb
  · exact hclear

theorem LowBuffer.foldl {step : BufferRule} (hb : LowBuffer b)
    (hstep : ∀ b r, LowBuffer b → r 0 ≠ 0x00 → NotLast r → LowBuffer (step b r))
    (hrs : ∀ r ∈ rs, r 0 ≠ 0x00 ∧ NotLast r) : LowBuffer (rs.foldl step b) := by
  induction rs generalizing b with
  | nil => exact hb
  | cons r rs ih =>
      obtain ⟨⟨h₀, hr⟩, hrs⟩ := List.forall_mem_cons.1 hrs
      exact ih (hstep b r hb h₀ hr) hrs

theorem findIndices_lt (hb : LowBuffer b) (h₀ : r 0 ≠ 0x00) (hr : NotLast r) :
    ∀ i ∈ findIndices target b r, i < 256 := by
  intro i hi
  unfold findIndices at hi
  rw [if_neg h₀] at hi
  split_ifs at hi with h₅ hlfn hlabel hlong hmatch hmatch
  · exact List.mem_range.1 hi
  · have := fragmentIndices_lt ⟨fun hf => hf.elim h₀ h₅, hlfn⟩ hr i hi
    omega
  all_goals simp only [List.cons_append, List.mem_cons, List.mem_append, List.mem_range,
    List.not_mem_nil, or_false, false_or] at hi
  · rcases hi with rfl | hi
    · omega
    · have := comparedIndices_le (Nat.zero_le 247) (hb 247 (le_refl _)) i hi
      omega
  · rcases hi with rfl | hi | hi
    · omega
    · have := comparedIndices_le (Nat.zero_le 247) (hb 247 (le_refl _)) i hi
      omega
    · exact hi
  · omega
  · omega

theorem listIndices_lt (hb : LowBuffer b) (h₀ : r 0 ≠ 0x00) (hr : NotLast r) :
    ∀ i ∈ listIndices b r, i < 256 := by
  intro i hi
  unfold listIndices at hi
  rw [if_neg h₀] at hi
  split_ifs at hi with h₅ hlfn hlabel hlong
  · rw [List.mem_singleton.1 hi]
    decide
  · have := fragmentIndices_lt ⟨fun hf => hf.elim h₀ h₅, hlfn⟩ hr i hi
    omega
  all_goals simp only [List.cons_append, List.mem_cons, List.mem_append, List.not_mem_nil, or_false,
    false_or] at hi
  · rcases hi with rfl | hi | rfl
    · omega
    · have := putsIndices_le (hb 247 (le_refl _)) i hi
      omega
    · omega
  · omega

variable {κ : Type} {touched : (Nat → UInt8) → Record → List Nat} {callback : Visitor κ}
  {buffer : κ → Nat → UInt8}

/-- A scan whose records all stay in the buffer. -/
theorem scanIndices_lt (step : BufferRule)
    (hend : ∀ sec i r ctx, r 0 = 0x00 →
      touched (buffer ctx) r = [] ∧ (callback sec i r ctx).1 ≠ 0)
    (hgo : ∀ sec i r ctx, r 0 ≠ 0x00 → (callback sec i r ctx).1 = 0 →
      buffer (callback sec i r ctx).2 = step (buffer ctx) r)
    (htouched : ∀ b r, LowBuffer b → r 0 ≠ 0x00 → NotLast r → ∀ i ∈ touched b r, i < 256)
    (hstep : ∀ b r, LowBuffer b → r 0 ≠ 0x00 → NotLast r → LowBuffer (step b r)) :
    ∀ (rs : List Record) (p : Nat) (ctx : κ), LowBuffer (buffer ctx) →
      (∀ r ∈ inUse rs, NotLast r) →
      ∀ i ∈ scanIndices touched callback buffer base rs p ctx, i < 256 := by
  intro rs
  induction rs with
  | nil =>
      intro p ctx _ _ i hi
      exact absurd hi (by simp [scanIndices])
  | cons r rs ih =>
      intro p ctx hb hrs i hi
      unfold scanIndices at hi
      by_cases h₀ : r 0 = 0x00
      · obtain ⟨hnil, hstop⟩ := hend (base + p / 16) (p % 16) r ctx h₀
        rw [hnil] at hi
        exact absurd hi (by simp [hstop])
      · have huse : inUse (r :: rs) = r :: inUse rs := by simp [inUse, h₀]
        rw [huse] at hrs
        obtain ⟨hr, hrs⟩ := List.forall_mem_cons.1 hrs
        rcases List.mem_append.1 hi with hi | hi
        · exact htouched _ r hb h₀ hr i hi
        · split at hi
          · rename_i hzero
            refine ih (p + 1) _ ?_ hrs i hi
            rw [hgo _ _ r ctx h₀ hzero]
            exact hstep _ r hb h₀ hr
          · exact absurd hi (by simp)

theorem findFileCallback_go_buffer (sec i : Nat) (r : Record) (ctx : FindCtx) (h₀ : r 0 ≠ 0x00)
    (h : (findFileCallback target sec i r ctx).1 = 0) :
    (findFileCallback target sec i r ctx).2.lfnBuffer = scanBuffer ctx.lfnBuffer r := by
  by_cases hmatch : r.IsEntry ∧ Visit.Matches target ⟨0, ctx.lfnBuffer, r⟩
  · rw [findFileCallback_match hmatch.1 hmatch.2] at h
    exact absurd h (show (1 : Int) ≠ 0 by decide)
  · rw [findFileCallback_step h₀ fun he hm => hmatch ⟨he, hm⟩]

end Low

/-- A listing writes every fragment in front of the end mark to the buffer. -/
theorem mem_scanIndices_list (hlfn : r.IsLfn) {i : Nat} (hi : i ∈ fragmentIndices r) :
    ∀ (rs : List Record) (p : Nat) (ctx : ListCtx), r ∈ inUse rs →
      i ∈ scanIndices listIndices listDirCallback ListCtx.lfnBuf base rs p ctx := by
  intro rs
  induction rs with
  | nil =>
      intro p ctx hr
      exact absurd hr (by simp [inUse])
  | cons r' rs ih =>
      intro p ctx hr
      by_cases h₀ : r' 0 = 0x00
      · exact absurd hr (by simp [inUse, h₀])
      · have huse : inUse (r' :: rs) = r' :: inUse rs := by simp [inUse, h₀]
        rw [huse] at hr
        unfold scanIndices
        apply List.mem_append.2
        rcases List.mem_cons.1 hr with rfl | hr
        · left
          rw [listIndices, if_neg h₀, if_neg fun h₅ => hlfn.1 (Or.inr h₅), if_pos hlfn.2]
          exact hi
        · right
          rw [listDirCallback_step (p := p) h₀]
          exact ih (p + 1) _ hr

/-- **The long-name buffer.**  Both visitors stay in it, for every name that is looked up, exactly
when no fragment in front of the end mark has the sequence number 20. -/
theorem buffer_safe_iff (base : Nat) (rs : List Record) (target : Name) :
    BufferSafe base rs target ↔ NoLastFragment rs := by
  have hempty : LowBuffer emptyBuffer := fun _ _ => rfl
  constructor
  · intro h r hr hlfn h20
    have hmem : 256 ∈ fragmentIndices r := by
      apply mem_fragmentIndices.2
      omega
    exact absurd (h.list 256 (mem_scanIndices_list hlfn hmem rs 0 ListCtx.zero hr)) (by decide)
  · intro h
    refine ⟨?_, ?_, fun n k hk => ?_⟩
    · refine scanIndices_lt scanBuffer (fun sec i r ctx h₀ => ⟨if_pos h₀, ?_⟩)
        findFileCallback_go_buffer (fun b r => findIndices_lt) (fun b r => LowBuffer.scanBuffer) rs 0
        FindCtx.zero hempty h
      rw [findFileCallback_end h₀]
      show (1 : Int) ≠ 0
      decide
    · refine scanIndices_lt listBuffer (fun sec i r ctx h₀ => ⟨if_pos h₀, ?_⟩)
        (fun sec i r ctx h₀ _ => ?_) (fun b r => listIndices_lt) (fun b r => LowBuffer.listBuffer) rs
        0 ListCtx.zero hempty h
      · rw [listDirCallback, if_pos h₀]
        show (1 : Int) ≠ 0
        decide
      · rw [listDirCallback_step (p := 0) h₀]
    · have huse : ∀ r ∈ (inUse rs).take n, r 0 ≠ 0x00 ∧ NotLast r := by
        intro r hr
        have hmem := List.mem_of_mem_take hr
        exact ⟨by simpa using List.mem_takeWhile_imp hmem, h r hmem⟩
      exact ⟨hempty.foldl (fun b r => LowBuffer.scanBuffer) huse k (by omega),
        hempty.foldl (fun b r => LowBuffer.listBuffer) huse k (by omega)⟩

/-- A fragment with the sequence number 20, all of whose characters are `A`. -/
def lastFragment : Record := fun k =>
  if k = 0 then 0x54 else if k = 11 then attrLfn else if k < 32 then 0x41 else 0

/-- It sets the flag `found`, although the directory has no entry. -/
theorem last_fragment_sets_flag : ¬ BufferSafe 0 [lastFragment] [0x61] ∧
    (visitList (findFileCallback [0x61]) 0 [lastFragment] 0 FindCtx.zero).2.found = true := by
  have hlfn : lastFragment.IsLfn := ⟨by simp [lastFragment, Record.IsFree], rfl⟩
  have huse : lastFragment ∈ inUse [lastFragment] := by simp [inUse, lastFragment]
  have hmem : 256 ∈ fragmentIndices lastFragment := by decide +kernel
  refine ⟨fun h => ?_, by decide +kernel⟩
  exact absurd (h.list 256 (mem_scanIndices_list hlfn hmem _ 0 ListCtx.zero huse)) (by decide)

/-! ## Listings and lookups -/

instance (r : Record) : Decidable r.IsLfn := inferInstanceAs (Decidable (¬ r.IsFree ∧ _))

/-- The record ends a long name: it is an entry or a deleted one. -/
def Record.EndsName (r : Record) : Prop := r 0 = 0xE5 ∨ r.IsEntry

instance (r : Record) : Decidable r.EndsName := inferInstanceAs (Decidable (_ ∨ _))

/-- The fragments of a list of records. -/
def fragments (xs : List Record) : List Record := xs.filter (·.IsLfn)

/-- The fragments behind the last record that ends a name. -/
def pending (xs : List Record) : List Record :=
  fragments (xs.reverse.takeWhile fun r => ¬ r.EndsName).reverse

/-- The characters that fragments put into an empty buffer. -/
def spelled (ls : List Record) : Nat → UInt8 := ls.foldl putFragment emptyBuffer

/-- The names that a listing prints are those that lookups have assembled, and a lookup accepts
each of them. -/
structure ListingAgrees (base : Nat) (rs : List Record) : Prop where
  names : (visitList listDirCallback base rs 0 ListCtx.zero).2.printed.map Line.name =
    (sightings scanBuffer 0 emptyBuffer rs).map Visit.displayName
  accepted : ∀ line ∈ (visitList listDirCallback base rs 0 ListCtx.zero).2.printed,
    (visitList (findFileCallback (cString line.name)) base rs 0 FindCtx.zero).2.found = true

/-- Where the long name of an entry ends, the fragments in front of the entry have left no
character of an earlier name. -/
def NoLeftover (rs : List Record) : Prop :=
  ∀ xs r ys, inUse rs = xs ++ r :: ys → r.IsEntry → ∀ k, 0 < k → k < 256 →
    (∀ j < k, spelled (pending xs) j ≠ 0) → spelled (pending xs) k = 0 →
      spelled (fragments xs) k = 0

section Fragments

variable {k : Nat}

@[simp] theorem fragments_snoc_lfn (h : r.IsLfn) : fragments (rs ++ [r]) = fragments rs ++ [r] := by
  simp [fragments, h]

@[simp] theorem fragments_snoc_other (h : ¬ r.IsLfn) : fragments (rs ++ [r]) = fragments rs := by
  simp [fragments, h]

theorem pending_snoc_ends (h : r.EndsName) : pending (rs ++ [r]) = [] := by
  simp [pending, fragments, h]

theorem pending_snoc_lfn (h : r.IsLfn) : pending (rs ++ [r]) = pending rs ++ [r] := by
  have hends : ¬ r.EndsName := by
    rintro (h₅ | he)
    · exact h.1 (Or.inr h₅)
    · exact he.not_lfn h.2
  simp [pending, fragments, hends, h]

theorem pending_snoc_other (h : ¬ r.EndsName) (hlfn : ¬ r.IsLfn) :
    pending (rs ++ [r]) = pending rs := by
  simp [pending, fragments, h, hlfn]

theorem spelled_snoc (ls : List Record) (r : Record) :
    spelled (ls ++ [r]) = putFragment (spelled ls) r := by
  rw [spelled, List.foldl_append]
  rfl

/-- The bytes that a fragment writes do not depend on those it finds. -/
theorem putFragment_of_mem {b b' : Nat → UInt8} (h : k ∈ fragmentIndices r) :
    putFragment b r k = putFragment b' r k := by
  obtain ⟨hpos, hle, hlo, hhi⟩ := mem_fragmentIndices.1 h
  unfold putFragment
  rw [if_pos ⟨hpos, hle⟩, if_pos ⟨hpos, hle⟩]
  unfold patch
  rw [List.length_map, List.length_range, if_pos ⟨hlo, hhi⟩, if_pos ⟨hlo, hhi⟩]

theorem putFragment_congr {b b' : Nat → UInt8} (h : b k = b' k) :
    putFragment b r k = putFragment b' r k := by
  by_cases hmem : k ∈ fragmentIndices r
  · exact putFragment_of_mem hmem
  · rw [putFragment_of_not_mem hmem, putFragment_of_not_mem hmem, h]

/-- No fragment reaches behind byte 259. -/
theorem spelled_high (ls : List Record) (hk : 260 ≤ k) : spelled ls k = 0 := by
  induction ls using List.reverseRecOn with
  | nil => rfl
  | append_singleton ls r ih =>
      rw [spelled_snoc, putFragment_of_not_mem, ih]
      intro hmem
      obtain ⟨-, h20, -, hlt⟩ := mem_fragmentIndices.1 hmem
      omega

/-- What a record that neither is a fragment nor ends a name does: nothing. -/
theorem scanBuffer_other (h₀ : r 0 ≠ 0x00) (h : ¬ r.EndsName) (hlfn : ¬ r.IsLfn) :
    scanBuffer b r = b ∧ listBuffer b r = b := by
  have h₅ : r 0 ≠ 0xE5 := fun h₅ => h (Or.inl h₅)
  have hattr : r.attributes ≠ attrLfn := fun hattr => hlfn ⟨fun hf => hf.elim h₀ h₅, hattr⟩
  have hlabel : r.attributes = attrVolumeId := by
    by_contra hlabel
    exact h (Or.inr ⟨fun hf => hf.elim h₀ h₅, hattr, hlabel⟩)
  unfold scanBuffer listBuffer
  rw [if_neg h₅, if_neg h₅, if_neg hattr, if_neg hattr, if_pos hlabel, if_pos hlabel]
  exact ⟨rfl, rfl⟩

theorem scanBuffer_ends (h : r.EndsName) :
    scanBuffer b r = clearBuffer b ∧ listBuffer b r = setByte b 0 0 := by
  rcases h with h₅ | he
  · exact ⟨scanBuffer_tombstone h₅, if_pos h₅⟩
  · refine ⟨scanBuffer_entry he, ?_⟩
    rw [listBuffer, if_neg fun hf => he.not_free (Or.inr hf), if_neg he.not_lfn, if_neg he.not_label]

theorem listBuffer_lfn (h : r.IsLfn) : listBuffer b r = putFragment b r := by
  rw [listBuffer, if_neg fun hf => h.1 (Or.inr hf), if_pos h.2]

/-- How the two buffers differ: `list_dir_callback` keeps what earlier names have left. -/
theorem buffers_spelled {xs : List Record} (hxs : ∀ r ∈ xs, r 0 ≠ 0x00) :
    (∀ k, k < 256 → xs.foldl scanBuffer emptyBuffer k = spelled (pending xs) k) ∧
    (∀ k, 256 ≤ k → xs.foldl scanBuffer emptyBuffer k = spelled (fragments xs) k) ∧
    (xs.foldl listBuffer emptyBuffer 0 = xs.foldl scanBuffer emptyBuffer 0) ∧
    (∀ k, 0 < k → xs.foldl listBuffer emptyBuffer k = spelled (fragments xs) k) ∧
    ∀ k, spelled (pending xs) k = 0 ∨ spelled (pending xs) k = spelled (fragments xs) k := by
  induction xs using List.reverseRecOn with
  | nil => exact ⟨fun _ _ => rfl, fun _ _ => rfl, rfl, fun _ _ => rfl, fun _ => Or.inl rfl⟩
  | append_singleton xs r ih =>
      obtain ⟨hfind, hhigh, hzero, hlist, hor⟩ := ih fun r' hr' => hxs r' (by simp [hr'])
      simp only [List.foldl_append, List.foldl_cons, List.foldl_nil]
      by_cases hlfn : r.IsLfn
      · rw [scanBuffer_lfn hlfn, listBuffer_lfn hlfn, fragments_snoc_lfn hlfn, pending_snoc_lfn hlfn,
          spelled_snoc, spelled_snoc]
        refine ⟨fun k hk => putFragment_congr (hfind k hk), fun k hk => putFragment_congr (hhigh k hk),
          putFragment_congr hzero, fun k hk => putFragment_congr (hlist k hk), fun k => ?_⟩
        by_cases hmem : k ∈ fragmentIndices r
        · exact Or.inr (putFragment_of_mem hmem)
        · rw [putFragment_of_not_mem hmem, putFragment_of_not_mem hmem]
          exact hor k
      · rw [fragments_snoc_other hlfn]
        by_cases hends : r.EndsName
        · rw [(scanBuffer_ends hends).1, (scanBuffer_ends hends).2, pending_snoc_ends hends]
          refine ⟨fun k hk => if_pos hk, fun k hk => ?_, rfl, fun k hk => ?_, fun k => Or.inl rfl⟩
          · rw [clearBuffer, if_neg (by omega), hhigh k hk]
          · rw [setByte, if_neg (by omega), hlist k hk]
        · have hr := hxs r (by simp)
          rw [(scanBuffer_other hr hends hlfn).1, (scanBuffer_other hr hends hlfn).2,
            pending_snoc_other hends hlfn]
          exact ⟨hfind, hhigh, hzero, hlist, hor⟩

end Fragments

/-! ## Names in a buffer -/

section Strings

variable {n m : Nat}

theorem length_cString_slice (hlt : ∀ j < m, b j ≠ 0) (hm : b m = 0) (hmn : m ≤ n) :
    (cString (slice b 0 n)).length = m := by
  rcases Nat.lt_trichotomy (cString (slice b 0 n)).length m with h | h | h
  · have hget := getD_cString_slice (le_refl (cString (slice b 0 n)).length) (h.trans_le hmn)
    rw [List.getD_eq_default _ _ (le_refl _)] at hget
    exact absurd hget.symm (hlt _ h)
  · exact h
  · exact absurd hm (cString_slice_ne_zero h)

theorem cString_slice_end (h : ∀ k, n ≤ k → b k = 0) : b (cString (slice b 0 n)).length = 0 := by
  rcases Nat.lt_or_ge (cString (slice b 0 n)).length n with hlt | hge
  · rw [← getD_cString_slice (le_refl _) hlt, List.getD_eq_default _ _ (le_refl _)]
  · exact h _ hge

/-- Two buffers that agree up to the end of the string in one of them. -/
theorem cString_slice_congr {b' : Nat → UInt8}
    (hagree : ∀ j < (cString (slice b 0 n)).length, b' j = b j)
    (hend : b' (cString (slice b 0 n)).length = 0) :
    cString (slice b' 0 n) = cString (slice b 0 n) := by
  have hlen : (cString (slice b' 0 n)).length = (cString (slice b 0 n)).length := by
    refine length_cString_slice (fun j hj => ?_) hend (length_cString_slice_le b n)
    rw [hagree j hj]
    exact cString_slice_ne_zero hj
  refine List.ext_getElem hlen fun j h₁ h₂ => ?_
  have hj := h₂.trans_le (length_cString_slice_le b n)
  have hget := getD_cString_slice h₁.le hj
  have hget' := getD_cString_slice h₂.le hj
  rw [List.getD_eq_getElem _ _ h₁] at hget
  rw [List.getD_eq_getElem _ _ h₂] at hget'
  rw [hget, hget', hagree j h₂]

theorem Visit.displayName_long {v : Visit} (h : v.buffer 0 ≠ 0) :
    v.displayName = cString (slice v.buffer 0 260) := if_pos h

theorem Visit.displayName_short {v : Visit} (h : v.buffer 0 = 0) :
    v.displayName = dotted (slice v.entry 0 8) (slice v.entry 8 3) := if_neg (not_not_intro h)

/-- The comparison with the long name in a buffer. -/
theorem Visit.matchFrom_buffer {v : Visit} (hv : ∀ k, 260 ≤ k → v.buffer k = 0) {n : Name} :
    matchFrom v.buffer 0 n = true ↔ SameName n (cString (slice v.buffer 0 260)) := by
  refine matchFrom_holds (fun k hk => ?_) (zero_not_mem_cString _)
  rcases Nat.lt_or_ge k 260 with hlt | hge
  · exact (getD_cString_slice hk hlt).symm
  · have hlen := length_cString_slice_le v.buffer 260
    rw [hv k hge, List.getD_eq_default _ _ (by omega)]

/-- An entry matches the name it is shown under. -/
theorem Visit.matches_displayName (v : Visit) (hv : ∀ k, 260 ≤ k → v.buffer k = 0) :
    v.Matches (cString v.displayName) := by
  by_cases h₀ : v.buffer 0 = 0
  · rw [Visit.displayName_short h₀]
    exact Or.inr (matchSfn_iff.2 rfl)
  · have hself : cString (cString (slice v.buffer 0 260)) = cString (slice v.buffer 0 260) := by
      unfold cString
      rw [List.takeWhile_takeWhile]
      simp
    rw [Visit.displayName_long h₀, hself]
    exact Or.inl ⟨h₀, (Visit.matchFrom_buffer hv).2 rfl⟩

end Strings

/-- The two visitors show an entry under one name exactly when nothing of an earlier name stands
where its name ends. -/
theorem displayName_eq_iff {xs : List Record} (hxs : ∀ r ∈ xs, r 0 ≠ 0x00) (pos pos' : Nat)
    (r : Record) :
    Visit.displayName ⟨pos, xs.foldl listBuffer emptyBuffer, r⟩ =
        Visit.displayName ⟨pos', xs.foldl scanBuffer emptyBuffer, r⟩ ↔
      ∀ k, 0 < k → k < 256 → (∀ j < k, spelled (pending xs) j ≠ 0) → spelled (pending xs) k = 0 →
        spelled (fragments xs) k = 0 := by
  obtain ⟨hfind, hhigh, hzero, hlist, hor⟩ := buffers_spelled hxs
  generalize xs.foldl scanBuffer emptyBuffer = found at hfind hhigh hzero ⊢
  generalize xs.foldl listBuffer emptyBuffer = shown at hzero hlist ⊢
  constructor
  · intro heq k hk hk256 hlt hend
    have hlt' : ∀ j < k, found j ≠ 0 := by
      intro j hj
      rw [hfind j (by omega)]
      exact hlt j hj
    have hlen := length_cString_slice hlt' ((hfind k hk256).trans hend) (n := 260) (by omega)
    rw [Visit.displayName_long (hzero.trans_ne (hlt' 0 hk)),
      Visit.displayName_long (hlt' 0 hk)] at heq
    have hget := getD_cString_slice (b := shown) (n := 260) (k := k) (by rw [heq, hlen]) (by omega)
    rw [← hlist k hk, ← hget, heq, List.getD_eq_default _ _ hlen.le]
  · intro hcond
    by_cases h₀ : found 0 = 0
    · rw [Visit.displayName_short (hzero.trans h₀), Visit.displayName_short h₀]
    · rw [Visit.displayName_long (hzero.trans_ne h₀), Visit.displayName_long h₀]
      show cString (slice shown 0 260) = cString (slice found 0 260)
      have hend : found (cString (slice found 0 260)).length = 0 := by
        apply cString_slice_end
        intro k hk
        rw [hhigh k (by omega), spelled_high _ hk]
      have hne : ∀ j < (cString (slice found 0 260)).length, found j ≠ 0 :=
        fun j hj => cString_slice_ne_zero hj
      refine cString_slice_congr (fun j hj => ?_) ?_
      · have hj' := hne j hj
        rcases Nat.eq_zero_or_pos j with rfl | hpos
        · exact hzero
        · rw [hlist j hpos]
          rcases Nat.lt_or_ge j 256 with hlt | hge
          · rw [hfind j hlt] at hj' ⊢
            exact ((hor j).resolve_left hj').symm
          · rw [hhigh j hge]
      · revert hend hne
        generalize (cString (slice found 0 260)).length = m
        intro hend hne
        have hpos : 0 < m := by
          apply Nat.pos_of_ne_zero
          rintro rfl
          exact h₀ hend
        rw [hlist m hpos]
        rcases Nat.lt_or_ge m 256 with hlt | hge
        · refine hcond m hpos hlt (fun j hj => ?_) ((hfind m hlt).symm.trans hend)
          rw [← hfind j (by omega)]
          exact hne j hj
        · rw [← hhigh m hge, hend]

/-- Two scans meet the same entries. -/
theorem sightings_map_eq_iff {α : Type} (f : Visit → α) (step step' : BufferRule) :
    ∀ (rs : List Record) (p : Nat) (b b' : Nat → UInt8),
      (sightings step p b rs).map f = (sightings step' p b' rs).map f ↔
        ∀ xs r ys, inUse rs = xs ++ r :: ys → r.IsEntry →
          f ⟨p + xs.length, xs.foldl step b, r⟩ = f ⟨p + xs.length, xs.foldl step' b', r⟩ := by
  intro rs
  induction rs with
  | nil =>
      intro p b b'
      exact ⟨fun _ xs r ys h => absurd h (by simp [inUse]), fun _ => rfl⟩
  | cons r rs ih =>
      intro p b b'
      by_cases h₀ : r 0 = 0x00
      · rw [sightings_end h₀, sightings_end h₀]
        exact ⟨fun _ xs r' ys h => absurd h (by simp [inUse, h₀]), fun _ => rfl⟩
      · have huse : inUse (r :: rs) = r :: inUse rs := by simp [inUse, h₀]
        have hrest : ((sightings step (p + 1) (step b r) rs).map f =
            (sightings step' (p + 1) (step' b' r) rs).map f) ↔
            ∀ xs r' ys, inUse rs = xs ++ r' :: ys → r'.IsEntry →
              f ⟨p + (r :: xs).length, (r :: xs).foldl step b, r'⟩ =
                f ⟨p + (r :: xs).length, (r :: xs).foldl step' b', r'⟩ := by
          rw [ih]
          simp only [List.length_cons, List.foldl_cons, Nat.add_assoc, Nat.add_comm 1]
        rw [huse]
        by_cases he : r.IsEntry
        · rw [sightings_entry he, sightings_entry he, List.map_cons, List.map_cons,
            List.cons_eq_cons, hrest]
          constructor
          · rintro ⟨hhead, htail⟩ (_ | ⟨r'', xs⟩) r' ys h he'
            · obtain ⟨rfl, rfl⟩ := List.cons_eq_cons.1 h
              exact hhead
            · obtain ⟨rfl, hxs⟩ := List.cons_eq_cons.1 h
              exact htail xs r' ys hxs he'
          · intro h
            exact ⟨h [] r (inUse rs) rfl he, fun xs r' ys hxs he' =>
              h (r :: xs) r' ys (by rw [hxs, List.cons_append]) he'⟩
        · rw [sightings_skip h₀ he, sightings_skip h₀ he, hrest]
          constructor
          · rintro htail (_ | ⟨r'', xs⟩) r' ys h he'
            · obtain ⟨rfl, rfl⟩ := List.cons_eq_cons.1 h
              exact absurd he' he
            · obtain ⟨rfl, hxs⟩ := List.cons_eq_cons.1 h
              exact htail xs r' ys hxs he'
          · intro h xs r' ys hxs he'
            exact h (r :: xs) r' ys (by rw [hxs, List.cons_append]) he'

theorem buffer_high {v : Visit} (hv : v ∈ sightings scanBuffer 0 emptyBuffer rs) :
    ∀ k, 260 ≤ k → v.buffer k = 0 := by
  obtain ⟨xs, ys, -, -, hxs, -, hbuf⟩ := sightings_split hv
  intro k hk
  rw [hbuf, (buffers_spelled hxs).2.1 k (by omega), spelled_high _ hk]

/-- A lookup accepts the name under which the scan has met an entry. -/
theorem displayName_accepted {v : Visit} (hv : v ∈ sightings scanBuffer 0 emptyBuffer rs) :
    (visitList (findFileCallback (cString v.displayName)) base rs 0 FindCtx.zero).2.found =
      true := by
  have hmatch := v.matches_displayName (buffer_high hv)
  have hfind := scan_finds (cString v.displayName) base rs 0 FindCtx.zero
  by_contra hnot
  rw [if_neg hnot, scanResult] at hfind
  split at hfind
  · exact absurd hfind (by simp)
  · rename_i hnone
    exact absurd hmatch (by simpa using List.find?_eq_none.1 hnone v hv)

/-- **Listing and lookup.**  The two agree on the names of a directory exactly when no long name
shows what an earlier one has left. -/
theorem listing_agrees_iff (base : Nat) (rs : List Record) :
    ListingAgrees base rs ↔ NoLeftover rs := by
  have hprinted : (visitList listDirCallback base rs 0 ListCtx.zero).2.printed =
      (sightings listBuffer 0 emptyBuffer rs).map Visit.line :=
    visitList_listDirCallback base rs 0 ListCtx.zero
  have hnames : (visitList listDirCallback base rs 0 ListCtx.zero).2.printed.map Line.name =
      (sightings listBuffer 0 emptyBuffer rs).map Visit.displayName := by
    rw [hprinted, List.map_map]
    rfl
  have hiff : (sightings listBuffer 0 emptyBuffer rs).map Visit.displayName =
      (sightings scanBuffer 0 emptyBuffer rs).map Visit.displayName ↔ NoLeftover rs := by
    rw [sightings_map_eq_iff]
    unfold NoLeftover
    refine forall_congr' fun xs => forall_congr' fun r => forall_congr' fun ys =>
      forall_congr' fun hsplit => forall_congr' fun _ => displayName_eq_iff (fun r' hr' => ?_) _ _ r
    have hmem : r' ∈ inUse rs := by
      rw [hsplit]
      exact List.mem_append_left _ hr'
    simpa using List.mem_takeWhile_imp hmem
  refine ⟨fun h => hiff.1 (hnames.symm.trans h.names), fun h => ?_⟩
  refine ⟨hnames.trans (hiff.2 h), fun line hline => ?_⟩
  have hmem : line.name ∈ (sightings scanBuffer 0 emptyBuffer rs).map Visit.displayName := by
    rw [← hiff.2 h, ← hnames]
    exact List.mem_map_of_mem hline
  obtain ⟨v, hv, hname⟩ := List.mem_map.1 hmem
  rw [← hname]
  exact displayName_accepted hv

/-- Behind a file with a name of 14 characters stands one with a name of 13. -/
def shadowedNames : List Record :=
  newRecords (List.replicate 14 0x61) (generateShortName (List.replicate 14 0x61) 1) attrArchive 0 0 ++
    newRecords (List.replicate 13 0x62) (generateShortName (List.replicate 13 0x62) 1) attrArchive 0 0

/-- The listing shows the last character of the first name behind the second one, and a lookup of
that name fails. -/
theorem listing_shows_leftover : ¬ ListingAgrees 0 shadowedNames ∧
    (visitList listDirCallback 0 shadowedNames 0 ListCtx.zero).2.printed.map Line.name =
      [List.replicate 14 0x61, List.replicate 13 0x62 ++ [0x61]] ∧
    (visitList (findFileCallback (List.replicate 13 0x62 ++ [0x61])) 0 shadowedNames 0
      FindCtx.zero).2.found = false := by
  have hprinted : (visitList listDirCallback 0 shadowedNames 0 ListCtx.zero).2.printed.map Line.name =
      [List.replicate 14 0x61, List.replicate 13 0x62 ++ [0x61]] := by
    decide +kernel
  have hfound : (visitList (findFileCallback (List.replicate 13 0x62 ++ [0x61])) 0 shadowedNames 0
      FindCtx.zero).2.found = false := by
    decide +kernel
  refine ⟨fun h => ?_, hprinted, hfound⟩
  have hmem : List.replicate 13 0x62 ++ [0x61] ∈
      (visitList listDirCallback 0 shadowedNames 0 ListCtx.zero).2.printed.map Line.name := by
    rw [hprinted]
    simp
  obtain ⟨line, hline, hname⟩ := List.mem_map.1 hmem
  have haccepted := h.accepted line hline
  have hself : cString (List.replicate 13 0x62 ++ [0x61]) = List.replicate 13 0x62 ++ [0x61] := by
    decide
  rw [hname, hself, hfound] at haccepted
  exact absurd haccepted (by decide)

end Fat16

end BenmoshOS
