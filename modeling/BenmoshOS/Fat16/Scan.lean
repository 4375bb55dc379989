import BenmoshOS.Fat16.Names

/-!
# FAT16: scans of arbitrary directories

The records of a directory need not be those that the driver writes.  Fragments may lie in any
order, may be left over from removed entries, and the one with the sequence number 20 reaches
behind the long-name buffer.  This file says what a scan of any list of records meets.

* `sightings` — the real entries in front of the end mark, each with the buffer that the scan
  has assembled so far; the rule by which a record changes the buffer is a parameter.
* `scanBuffer`, `listBuffer` — the rules of `find_file_callback` and `list_dir_callback`.
* `scan_finds` — a lookup finds the first sighting that the name matches, or it is misled by
  the bytes behind the buffer.
* `visitList_listDirCallback` — a listing prints the sightings.
-/

namespace BenmoshOS

namespace Fat16

variable {p base : Nat} {b : Nat → UInt8} {r : Record} {rs xs ys : List Record} {name : Name}

instance (r : Record) : Decidable r.IsEntry :=
  decidable_of_iff (¬ r.IsFree ∧ r.attributes ≠ attrLfn ∧ r.attributes ≠ attrVolumeId)
    ⟨fun h => ⟨h.1, h.2.1, h.2.2⟩, fun h => ⟨h.not_free, h.not_lfn, h.not_label⟩⟩

/-! ## Sightings -/

/-- How a record changes the long-name buffer. -/
abbrev BufferRule := (Nat → UInt8) → Record → Nat → UInt8

/-- The records in front of the end mark. -/
def inUse (rs : List Record) : List Record := rs.takeWhile fun r => r 0 ≠ 0x00

/-- The entries that a scan meets from position `p` on with buffer `b`. -/
def sightings (step : BufferRule) : Nat → (Nat → UInt8) → List Record → List Visit
  | _, _, [] => []
  | p, b, r :: rs =>
      if r 0 = 0x00 then []
      else if r.IsEntry then ⟨p, b, r⟩ :: sightings step (p + 1) (step b r) rs
      else sightings step (p + 1) (step b r) rs

/-- The buffer at the end of the scan. -/
def lastBuffer (step : BufferRule) (b : Nat → UInt8) (rs : List Record) : Nat → UInt8 :=
  (inUse rs).foldl step b

section Sightings

variable {step : BufferRule}

theorem sightings_end (h : r 0 = 0x00) : sightings step p b (r :: rs) = [] := if_pos h

theorem sightings_entry (h : r.IsEntry) :
    sightings step p b (r :: rs) = ⟨p, b, r⟩ :: sightings step (p + 1) (step b r) rs := by
  rw [sightings, if_neg fun h₀ => h.not_free (Or.inl h₀), if_pos h]

theorem sightings_skip (h₀ : r 0 ≠ 0x00) (h : ¬ r.IsEntry) :
    sightings step p b (r :: rs) = sightings step (p + 1) (step b r) rs := by
  rw [sightings, if_neg h₀, if_neg h]

theorem lastBuffer_end (h : r 0 = 0x00) : lastBuffer step b (r :: rs) = b := by
  simp [lastBuffer, inUse, h]

theorem lastBuffer_go (h : r 0 ≠ 0x00) :
    lastBuffer step b (r :: rs) = lastBuffer step (step b r) rs := by
  simp [lastBuffer, inUse, h]

theorem sightings_append (h : ∀ r ∈ xs, r 0 ≠ 0x00) :
    sightings step p b (xs ++ ys) =
      sightings step p b xs ++ sightings step (p + xs.length) (xs.foldl step b) ys := by
  induction xs generalizing p b with
  | nil => rfl
  | cons r xs ih =>
      have h₀ := h r (List.mem_cons_self ..)
      have ih' := ih (p := p + 1) (b := step b r) fun r' hr' => h r' (List.mem_cons_of_mem _ hr')
      rw [Nat.add_assoc p 1, Nat.add_comm 1] at ih'
      rw [List.cons_append, List.foldl_cons, List.length_cons]
      by_cases he : r.IsEntry
      · rw [sightings_entry he, sightings_entry he, ih', List.cons_append]
      · rw [sightings_skip h₀ he, sightings_skip h₀ he, ih']

theorem lastBuffer_append (h : ∀ r ∈ xs, r 0 ≠ 0x00) :
    lastBuffer step b (xs ++ ys) = lastBuffer step (xs.foldl step b) ys := by
  induction xs generalizing b with
  | nil => rfl
  | cons r xs ih =>
      rw [List.cons_append, lastBuffer_go (h r (List.mem_cons_self ..)),
        ih fun r' hr' => h r' (List.mem_cons_of_mem _ hr'), List.foldl_cons]

/-- A sighting splits the list of records at its position. -/
theorem sightings_split {v : Visit} (h : v ∈ sightings step p b rs) :
    ∃ xs ys, rs = xs ++ v.entry :: ys ∧ v.pos = p + xs.length ∧ (∀ r ∈ xs, r 0 ≠ 0x00) ∧
      v.entry.IsEntry ∧ v.buffer = xs.foldl step b := by
  induction rs generalizing p b with
  | nil => exact absurd h (by simp [sightings])
  | cons r rs ih =>
      by_cases h₀ : r 0 = 0x00
      · rw [sightings_end h₀] at h
        exact absurd h (by simp)
      · have hmore : v ∈ sightings step (p + 1) (step b r) rs → ∃ xs ys,
            r :: rs = xs ++ v.entry :: ys ∧ v.pos = p + xs.length ∧ (∀ r ∈ xs, r 0 ≠ 0x00) ∧
              v.entry.IsEntry ∧ v.buffer = xs.foldl step b := by
          intro hv
          obtain ⟨xs, ys, rfl, hpos, hxs, he, hbuf⟩ := ih hv
          refine ⟨r :: xs, ys, rfl, by rw [hpos, List.length_cons]; omega, ?_, he, hbuf⟩
          exact List.forall_mem_cons.2 ⟨h₀, hxs⟩
        by_cases he : r.IsEntry
        · rw [sightings_entry he] at h
          rcases List.mem_cons.1 h with rfl | h
          · exact ⟨[], rs, rfl, rfl, by simp, he, rfl⟩
          · exact hmore h
        · rw [sightings_skip h₀ he] at h
          exact hmore h

end Sightings

/-! ## Lookups -/

/-- The buffer of `find_file_callback` behind a record at which the scan goes on.  The bytes
behind the 256 of `lfn_buffer` are never cleared. -/
def scanBuffer : BufferRule := fun b r =>
  if r 0 = 0xE5 then clearBuffer b
  else if r.attributes = attrLfn then putFragment b r
  else if r.attributes = attrVolumeId then b
  else clearBuffer b

theorem scanBuffer_entry (h : r.IsEntry) : scanBuffer b r = clearBuffer b := by
  rw [scanBuffer, if_neg fun hf => h.not_free (Or.inr hf), if_neg h.not_lfn, if_neg h.not_label]

theorem scanBuffer_tombstone (h : r 0 = 0xE5) : scanBuffer b r = clearBuffer b := if_pos h

theorem scanBuffer_lfn (h : r.IsLfn) : scanBuffer b r = putFragment b r := by
  rw [scanBuffer, if_neg fun hf => h.1 (Or.inr hf), if_pos h.2]

theorem findFileCallback_step {sec i : Nat} {ctx : FindCtx} (h₀ : r 0 ≠ 0x00)
    (h : r.IsEntry → ¬ Visit.Matches name ⟨0, ctx.lfnBuffer, r⟩) :
    findFileCallback name sec i r ctx = (0, ⟨ctx.out, scanBuffer ctx.lfnBuffer r⟩) := by
  unfold findFileCallback scanBuffer
  rw [if_neg h₀]
  by_cases h₅ : r 0 = 0xE5
  · rw [if_pos h₅, if_pos h₅]
  · rw [if_neg h₅, if_neg h₅]
    by_cases hlfn : r.attributes = attrLfn
    · rw [if_pos hlfn, if_pos hlfn]
    · rw [if_neg hlfn, if_neg hlfn]
      by_cases hlabel : r.attributes = attrVolumeId
      · rw [if_neg (not_not_intro hlabel), if_pos hlabel]
      · rw [if_pos hlabel, if_neg hlabel]
        exact if_neg (h ⟨fun hf => hf.elim h₀ h₅, hlfn, hlabel⟩)

/-- What a scan finds: the first sighting that matches.  Otherwise the flag `found` decides,
which only fragments can have changed. -/
def scanResult (name : Name) (base p : Nat) (ctx : FindCtx) (rs : List Record) : Option Found :=
  match (sightings scanBuffer p ctx.lfnBuffer rs).find? (·.Matches name) with
  | some v => some (v.found base)
  | none => if u32 (lastBuffer scanBuffer ctx.lfnBuffer rs) 256 ≠ 0 then some ctx.out else none

/-- **Lookup.**  The visitor of `fat16_find_in_dir` finds the first sighting that matches. -/
theorem scan_finds (name : Name) (base : Nat) (rs : List Record) : ∀ (p : Nat) (ctx : FindCtx),
    (if (visitList (findFileCallback name) base rs p ctx).2.found then
      some (visitList (findFileCallback name) base rs p ctx).2.out else none) =
      scanResult name base p ctx rs := by
  induction rs with
  | nil =>
      intro p ctx
      by_cases hflag : u32 ctx.lfnBuffer 256 = 0
      · simp [visitList, scanResult, sightings, lastBuffer, inUse, FindCtx.found, hflag]
      · simp [visitList, scanResult, sightings, lastBuffer, inUse, FindCtx.found, hflag]
  | cons r rs ih =>
      intro p ctx
      by_cases h₀ : r 0 = 0x00
      · rw [visitList_end (findFileCallback_end h₀), scanResult, sightings_end h₀,
          lastBuffer_end h₀]
        simp [FindCtx.found]
      · have hgo : (r.IsEntry → ¬ Visit.Matches name ⟨0, ctx.lfnBuffer, r⟩) →
            scanResult name base (p + 1) ⟨ctx.out, scanBuffer ctx.lfnBuffer r⟩ rs =
              scanResult name base p ctx (r :: rs) := by
          intro hno
          unfold scanResult
          rw [lastBuffer_go h₀]
          by_cases he : r.IsEntry
          · have hfalse : decide (Visit.Matches name ⟨p, ctx.lfnBuffer, r⟩) = false :=
              decide_eq_false (hno he)
            rw [sightings_entry he, List.find?_cons, hfalse]
          · rw [sightings_skip h₀ he]
        by_cases hmatch : r.IsEntry ∧ Visit.Matches name ⟨0, ctx.lfnBuffer, r⟩
        · have hm : Visit.Matches name ⟨p, ctx.lfnBuffer, r⟩ := hmatch.2
          rw [visitList_end (findFileCallback_match hmatch.1 hm), scanResult,
            sightings_entry hmatch.1, List.find?_cons, decide_eq_true hm, if_pos (found_setU32 _ _)]
          rfl
        · have hno : r.IsEntry → ¬ Visit.Matches name ⟨0, ctx.lfnBuffer, r⟩ :=
            fun he hm => hmatch ⟨he, hm⟩
          rw [visitList_go (findFileCallback_step h₀ hno), ih, hgo hno]

/-! ## Listings -/

/-- The buffer of `list_dir_callback` behind a record: only its first byte is ever cleared. -/
def listBuffer : BufferRule := fun b r =>
  if r 0 = 0xE5 then setByte b 0 0
  else if r.attributes = attrLfn then putFragment b r
  else if r.attributes = attrVolumeId then b
  else setByte b 0 0

/-- The name of an entry: the long name in the buffer or, when that is empty, the short one. -/
def Visit.displayName (v : Visit) : List UInt8 :=
  if v.buffer 0 ≠ 0 then cString (slice v.buffer 0 260)
  else dotted (slice v.entry 0 8) (slice v.entry 8 3)

/-- The line of an entry. -/
def Visit.line (v : Visit) : Line := ⟨v.entry.isDirectory, v.displayName, v.entry.fileSize⟩

theorem listDirCallback_step {sec i : Nat} {ctx : ListCtx} (h₀ : r 0 ≠ 0x00) :
    listDirCallback sec i r ctx = (0, ⟨listBuffer ctx.lfnBuf r, ctx.printed ++
      if r.IsEntry then [Visit.line ⟨p, ctx.lfnBuf, r⟩] else []⟩) := by
  unfold listDirCallback listBuffer
  rw [if_neg h₀]
  by_cases h₅ : r 0 = 0xE5
  · have he : ¬ r.IsEntry := fun he => he.not_free (Or.inr h₅)
    rw [if_pos h₅, if_pos h₅, if_neg he, List.append_nil]
  · rw [if_neg h₅, if_neg h₅]
    by_cases hlfn : r.attributes = attrLfn
    · have he : ¬ r.IsEntry := fun he => he.not_lfn hlfn
      rw [if_pos hlfn, if_pos hlfn, if_neg he, List.append_nil]
    · rw [if_neg hlfn, if_neg hlfn]
      by_cases hlabel : r.attributes = attrVolumeId
      · have he : ¬ r.IsEntry := fun he => he.not_label hlabel
        rw [if_neg (not_not_intro hlabel), if_pos hlabel, if_neg he, List.append_nil]
      · have he : r.IsEntry := ⟨fun hf => hf.elim h₀ h₅, hlfn, hlabel⟩
        rw [if_pos hlabel, if_neg hlabel, if_pos he]
        rfl

/-- **Listing.**  `fat16_list_directory` prints a line for every sighting. -/
theorem visitList_listDirCallback (base : Nat) (rs : List Record) : ∀ (p : Nat) (ctx : ListCtx),
    (visitList listDirCallback base rs p ctx).2.printed =
      ctx.printed ++ (sightings listBuffer p ctx.lfnBuf rs).map Visit.line := by
  induction rs with
  | nil =>
      intro p ctx
      exact (List.append_nil _).symm
  | cons r rs ih =>
      intro p ctx
      by_cases h₀ : r 0 = 0x00
      · have hend : listDirCallback (base + p / 16) (p % 16) r ctx = (1, ctx) := if_pos h₀
        rw [visitList_end hend, sightings_end h₀, List.map_nil, List.append_nil]
      · rw [visitList_go (listDirCallback_step (p := p) h₀), ih]
        by_cases he : r.IsEntry
        · simp only [if_pos he, sightings_entry he, List.map_cons, List.append_assoc,
            List.singleton_append]
        · simp only [if_neg he, sightings_skip h₀ he, List.append_nil]

end Fat16

end BenmoshOS
