import BenmoshOS.Fat16.Spans

/-!
# FAT16: insertion into a clean directory

A directory is clean when its long-name records lie in complete runs, each in front of its entry,
and nothing but zeroes follows the end mark.

* `CleanDir` — clean lists of records.
* `scanResult_insert` — what new records in free slots do to lookups.
* `CleanDir.insert` — the new records keep a directory clean.
* `insert_clean` — `fat16_insert_entry` in a clean directory: one name more, and nothing else.
-/

namespace BenmoshOS

namespace Fat16

open Exec (Yields Halts)
open Fs

variable {g : Geometry} {d : Disk} {D : Nat} {name : Name}

/-! ## Scans over free slots and new records -/

section Scans

variable {p base : Nat} {b : Nat → UInt8} {xs ys as ws bs ls : List Record} {e : Record}

@[simp] theorem clearBuffer_clearBuffer (b : Nat → UInt8) :
    clearBuffer (clearBuffer b) = clearBuffer b := by
  funext k
  unfold clearBuffer
  split
  · rfl
  · rfl

@[simp] theorem u32_clearBuffer (b : Nat → UInt8) : u32 (clearBuffer b) 256 = u32 b 256 := rfl

theorem sightings_zero (h : ∀ r ∈ ys, r 0 = 0x00) : sightings scanBuffer p b ys = [] := by
  cases ys with
  | nil => rfl
  | cons r ys => exact sightings_end (h r (List.mem_cons_self ..))

theorem lastBuffer_zero (h : ∀ r ∈ ys, r 0 = 0x00) : lastBuffer scanBuffer b ys = b := by
  cases ys with
  | nil => rfl
  | cons r ys => exact lastBuffer_end (h r (List.mem_cons_self ..))

/-- Free slots: the scan ends in them, or goes on behind them with an empty buffer. -/
theorem scan_free (hxs : xs ≠ []) (hfree : ∀ r ∈ xs, r.IsFree) (hz : ZeroTail (xs ++ ys)) :
    sightings scanBuffer p b (xs ++ ys) =
        sightings scanBuffer (p + xs.length) (clearBuffer b) ys ∧
      u32 (lastBuffer scanBuffer b (xs ++ ys)) 256 =
        u32 (lastBuffer scanBuffer (clearBuffer b) ys) 256 := by
  induction xs generalizing p b with
  | nil => exact absurd rfl hxs
  | cons r xs ih =>
      rw [List.cons_append] at hz ⊢
      obtain ⟨hr, hz'⟩ := List.pairwise_cons.1 hz
      by_cases h₀ : r 0 = 0x00
      · have hys : ∀ r' ∈ ys, r' 0 = 0x00 := fun r' hr' => hr r' (List.mem_append_right _ hr') h₀
        rw [sightings_end h₀, lastBuffer_end h₀, sightings_zero hys, lastBuffer_zero hys,
          u32_clearBuffer]
        exact ⟨rfl, rfl⟩
      · have h₅ : r 0 = 0xE5 := (hfree r (List.mem_cons_self ..)).resolve_left h₀
        have hentry : ¬ r.IsEntry := fun he => he.not_free (Or.inr h₅)
        rw [sightings_skip h₀ hentry, lastBuffer_go h₀, scanBuffer_tombstone h₅]
        cases xs with
        | nil => exact ⟨rfl, rfl⟩
        | cons r' xs =>
            have hrest := ih (p := p + 1) (b := clearBuffer b) (by simp)
              (fun r hr => hfree r (List.mem_cons_of_mem _ hr)) hz'
            rw [clearBuffer_clearBuffer, Nat.add_assoc, Nat.add_comm 1] at hrest
            exact hrest

/-- A scan meets no entries among fragments. -/
theorem sightings_lfns (hls : ∀ r ∈ ls, r.IsLfn) : sightings scanBuffer p b ls = [] := by
  rw [List.eq_nil_iff_forall_not_mem]
  intro v hv
  obtain ⟨xs, ys, hsplit, -, -, hentry, -⟩ := sightings_split hv
  exact hentry.not_lfn (hls v.entry (by rw [hsplit]; simp)).2

/-- Fragments in front of an entry. -/
theorem scan_records (hls : ∀ r ∈ ls, r.IsLfn) (he : e.IsEntry) :
    sightings scanBuffer p b (ls ++ [e] ++ bs) =
        ⟨p + ls.length, ls.foldl putFragment b, e⟩ ::
          sightings scanBuffer (p + (ls.length + 1)) (clearBuffer (ls.foldl putFragment b)) bs ∧
      lastBuffer scanBuffer b (ls ++ [e] ++ bs) =
        lastBuffer scanBuffer (clearBuffer (ls.foldl putFragment b)) bs := by
  have h₀ : ∀ r ∈ ls, r 0 ≠ 0x00 := fun r hr hzero => (hls r hr).1 (Or.inl hzero)
  have he₀ : e 0 ≠ 0x00 := fun hzero => he.not_free (Or.inl hzero)
  rw [List.append_assoc, sightings_append h₀, lastBuffer_append h₀, sightings_lfns hls,
    List.nil_append, foldl_scanBuffer_lfns hls, List.singleton_append, sightings_entry he, lastBuffer_go he₀,
    scanBuffer_entry he, Nat.add_assoc]
  exact ⟨rfl, rfl⟩

/-- The sightings of a list with free slots in the middle. -/
theorem sightings_free (has : ∀ r ∈ as, r 0 ≠ 0x00) (hne : ws ≠ []) (hws : ∀ r ∈ ws, r.IsFree)
    (hz : ZeroTail (as ++ (ws ++ bs))) :
    sightings scanBuffer 0 b (as ++ (ws ++ bs)) = sightings scanBuffer 0 b as ++
      sightings scanBuffer (as.length + ws.length) (clearBuffer (as.foldl scanBuffer b)) bs := by
  rw [sightings_append has, (scan_free hne hws (List.pairwise_append.1 hz).2.1).1, Nat.zero_add]

/-- The sightings with fragments and an entry in place of the free slots. -/
theorem sightings_records (has : ∀ r ∈ as, r 0 ≠ 0x00) (hls : ∀ r ∈ ls, r.IsLfn) (he : e.IsEntry)
    (hhigh : clearBuffer (ls.foldl putFragment (as.foldl scanBuffer b)) =
      clearBuffer (as.foldl scanBuffer b)) :
    sightings scanBuffer 0 b (as ++ (ls ++ [e] ++ bs)) = sightings scanBuffer 0 b as ++
      ⟨as.length + ls.length, ls.foldl putFragment (as.foldl scanBuffer b), e⟩ ::
        sightings scanBuffer (as.length + (ls.length + 1)) (clearBuffer (as.foldl scanBuffer b))
          bs := by
  rw [sightings_append has, (scan_records hls he).1, hhigh, Nat.zero_add]

/-- **New records.**  Fragments and an entry in free slots add one sighting, which is found by the
names that it matches; other names are found, or not found, as before. -/
theorem scanResult_insert (has : ∀ r ∈ as, r 0 ≠ 0x00) (hws : ∀ r ∈ ws, r.IsFree)
    (hlen : ws.length = ls.length + 1) (hls : ∀ r ∈ ls, r.IsLfn) (he : e.IsEntry)
    (hz : ZeroTail (as ++ (ws ++ bs)))
    (hhigh : clearBuffer (ls.foldl putFragment (as.foldl scanBuffer b)) =
      clearBuffer (as.foldl scanBuffer b)) (out : Found) (n : Name) :
    (¬ Visit.Matches n ⟨as.length + ls.length, ls.foldl putFragment (as.foldl scanBuffer b), e⟩ →
      scanResult n base 0 ⟨out, b⟩ (as ++ (ls ++ [e] ++ bs)) =
        scanResult n base 0 ⟨out, b⟩ (as ++ (ws ++ bs))) ∧
    (Visit.Matches n ⟨as.length + ls.length, ls.foldl putFragment (as.foldl scanBuffer b), e⟩ →
      (∀ v ∈ sightings scanBuffer 0 b (as ++ (ws ++ bs)), ¬ v.Matches n) →
      scanResult n base 0 ⟨out, b⟩ (as ++ (ls ++ [e] ++ bs)) =
        some ⟨e, base + (as.length + ls.length) / 16, (as.length + ls.length) % 16⟩) := by
  have hws' : ws ≠ [] := by
    rintro rfl
    simp at hlen
  have hflag := (scan_free (p := 0) (b := as.foldl scanBuffer b) hws' hws
    (List.pairwise_append.1 hz).2.1).2
  have hbefore := sightings_free (b := b) has hws' hws hz
  have hafter : sightings scanBuffer 0 b (as ++ (ls ++ [e] ++ bs)) = _ :=
    sightings_records has hls he hhigh
  rw [hlen] at hbefore
  have hflags : u32 (lastBuffer scanBuffer b (as ++ (ls ++ [e] ++ bs))) 256 =
      u32 (lastBuffer scanBuffer b (as ++ (ws ++ bs))) 256 := by
    rw [lastBuffer_append has, lastBuffer_append has, (scan_records (p := 0) hls he).2, hhigh, hflag]
  constructor
  · intro hmatch
    unfold scanResult
    rw [hbefore, hafter, List.find?_append, List.find?_append, List.find?_cons,
      decide_eq_false hmatch, hflags]
  · intro hmatch hothers
    have hnone : (sightings scanBuffer 0 b as).find? (·.Matches n) = none := by
      refine List.find?_eq_none.2 fun v hv => ?_
      rw [hbefore] at hothers
      simpa using hothers v (List.mem_append_left _ hv)
    unfold scanResult
    rw [hafter, List.find?_append, hnone, List.find?_cons, decide_eq_true hmatch]
    rfl

end Scans

/-! ## Clean directories -/

/-- The slots from `p` on hold a complete run of `n` long-name records, counted down to 1 with the
mark of the last fragment on the first one, and then the entry they belong to.  With `checked` they
also bear the checksum of its short name. -/
structure RunAt (checked : Bool) (rs : List Record) (p n : Nat) (e : Record) : Prop where
  entry : rs[p + n]? = some e
  isEntry : e.IsEntry
  fragment : ∀ i < n, ∃ r, rs[p + i]? = some r ∧ r.IsLfn ∧
    r 0 = (UInt8.ofNat (n - i) ||| if i = 0 then 0x40 else 0) ∧
    (checked = true → r 13 = lfnChecksum (slice e 0 11))

/-- A clean directory: every long-name record belongs to a complete run, and every slot behind the
first one that begins with a zero begins with a zero. -/
structure CleanDir (checked : Bool) (rs : List Record) : Prop where
  zeroTail : ZeroTail rs
  runs : ∀ i r, rs[i]? = some r → r.IsLfn → ∃ p n e, p ≤ i ∧ i < p + n ∧ RunAt checked rs p n e

section Clean

variable {checked : Bool} {rs as ws bs ls : List Record} {p n : Nat} {e : Record}

/-- No slot of a run is free. -/
theorem RunAt.not_freeAt (h : RunAt checked rs p n e) {j : Nat} (hj : p ≤ j) (hj' : j ≤ p + n) :
    ¬ FreeAt rs j := by
  rintro ⟨r, hr, hfree⟩
  obtain ⟨i, rfl⟩ := Nat.exists_eq_add_of_le hj
  rcases Nat.lt_or_ge i n with hlt | hge
  · obtain ⟨r', hr', hlfn, -⟩ := h.fragment i hlt
    rw [hr'] at hr
    exact hlfn.1 (Option.some.inj hr ▸ hfree)
  · obtain rfl : i = n := by omega
    rw [h.entry] at hr
    exact h.isEntry.not_free (Option.some.inj hr ▸ hfree)

theorem RunAt.congr {rs' : List Record} (h : RunAt checked rs p n e)
    (heq : ∀ j, p ≤ j → j ≤ p + n → rs'[j]? = rs[j]?) : RunAt checked rs' p n e := by
  refine ⟨?_, h.isEntry, fun i hi => ?_⟩
  · rw [heq _ (Nat.le_add_right ..) (le_refl _)]
    exact h.entry
  · rw [heq _ (Nat.le_add_right ..) (by omega)]
    exact h.fragment i hi

/-- An empty directory is clean. -/
theorem cleanDir_zero (h : ∀ r ∈ rs, r 0 = 0x00) : CleanDir checked rs := by
  refine ⟨List.pairwise_of_forall_mem_list fun r _ r' hr' _ => h r' hr', fun i r hr hlfn => ?_⟩
  exact absurd (Or.inl (h r (List.mem_of_getElem? hr))) hlfn.1

/-- A directory with one run, at its beginning. -/
theorem cleanDir_of_run (hrun : RunAt checked rs 0 n e)
    (hrest : ∀ i r, rs[i]? = some r → n < i → r 0 = 0x00) : CleanDir checked rs := by
  refine ⟨List.pairwise_iff_getElem.2 fun i j hi hj hij hzero => ?_, fun i r hr hlfn => ?_⟩
  · have hlt : n < i := by
      by_contra hle
      exact hrun.not_freeAt (j := i) (Nat.zero_le i) (by omega)
        ⟨_, List.getElem?_eq_getElem hi, Or.inl hzero⟩
    exact hrest j _ (List.getElem?_eq_getElem hj) (by omega)
  · rcases Nat.lt_trichotomy i n with hlt | rfl | hgt
    · exact ⟨0, n, e, Nat.zero_le i, by omega, hrun⟩
    · have hentry := hrun.entry
      rw [Nat.zero_add, hr] at hentry
      exact absurd hlfn.2 (Option.some.inj hentry ▸ hrun.isEntry.not_lfn)
    · exact absurd (Or.inl (hrest i r hr hgt)) hlfn.1

/-- A scan arrives with an empty buffer behind fragments that are all followed by an entry. -/
theorem foldl_scanBuffer_zero (h₀ : ∀ r ∈ as, r 0 ≠ 0x00)
    (h : ∀ (i : Nat) (r : Record), as[i]? = some r → r.IsLfn →
      ∃ (j : Nat) (r' : Record), i < j ∧ as[j]? = some r' ∧ r'.EndsName)
    {k : Nat} (hk : k < 256) : as.foldl scanBuffer emptyBuffer k = 0 := by
  induction as using List.reverseRecOn with
  | nil => rfl
  | append_singleton as r ih =>
      rw [List.foldl_append, List.foldl_cons, List.foldl_nil]
      have hlast : (as ++ [r])[as.length]? = some r := by simp
      by_cases hlfn : r.IsLfn
      · obtain ⟨j, r', hj, hr', -⟩ := h as.length r hlast hlfn
        have hlt := (List.getElem?_eq_some_iff.1 hr').1
        rw [List.length_append, List.length_singleton] at hlt
        omega
      · by_cases hends : r.EndsName
        · rw [(scanBuffer_ends hends).1]
          exact if_pos hk
        · rw [(scanBuffer_other (h₀ r (by simp)) hends hlfn).1]
          refine ih (fun r' hr' => h₀ r' (by simp [hr'])) fun i r' hr' hlfn' => ?_
          have hi := (List.getElem?_eq_some_iff.1 hr').1
          obtain ⟨j, r'', hj, hr'', hends'⟩ := h i r'
            (by rw [List.getElem?_append_left hi]; exact hr') hlfn'
          have hjlt := (List.getElem?_eq_some_iff.1 hr'').1
          rw [List.length_append, List.length_singleton] at hjlt
          -- the last record ends no name
          have hne : j ≠ as.length := by
            rintro rfl
            rw [hlast] at hr''
            exact hends (Option.some.inj hr'' ▸ hends')
          rw [List.getElem?_append_left (by omega)] at hr''
          exact ⟨j, r'', hj, hr'', hends'⟩

/-- In front of a free slot of a clean directory no fragments are pending. -/
theorem CleanDir.buffer (h : CleanDir checked (as ++ ws)) (has : ∀ r ∈ as, r 0 ≠ 0x00)
    (hfree : FreeAt (as ++ ws) as.length) {k : Nat} (hk : k < 256) :
    as.foldl scanBuffer emptyBuffer k = 0 := by
  refine foldl_scanBuffer_zero has (fun i r hr hlfn => ?_) hk
  have hi := (List.getElem?_eq_some_iff.1 hr).1
  obtain ⟨p, n, e, hp, hpn, hrun⟩ := h.runs i r (by rw [List.getElem?_append_left hi]; exact hr) hlfn
  -- the run does not reach the free slot
  have hlt : p + n < as.length := by
    by_contra hge
    exact hrun.not_freeAt (j := as.length) (by omega) (by omega) hfree
  have hentry := hrun.entry
  rw [List.getElem?_append_left hlt] at hentry
  exact ⟨p + n, e, hpn, hentry, Or.inr hrun.isEntry⟩

/-- So a new long name is terminated in the buffer. -/
theorem CleanDir.terminated (h : CleanDir checked (as ++ (ws ++ bs))) (has : ∀ r ∈ as, r 0 ≠ 0x00)
    (hne : ws ≠ []) (hws : ∀ r ∈ ws, r.IsFree) (hlen : name.length ≤ 255) :
    Terminated (as.foldl scanBuffer emptyBuffer) name := by
  have hpos := List.length_pos_of_ne_nil hne
  have hat : FreeAt (as ++ (ws ++ bs)) as.length := by
    refine ⟨ws.get ⟨0, hpos⟩, ?_, hws _ (List.get_mem ..)⟩
    rw [List.getElem?_append_right (le_refl _), Nat.sub_self, List.getElem?_append_left hpos,
      List.getElem?_eq_getElem hpos]
    rfl
  exact fun _ => h.buffer has hat (by omega)

/-- **Clean directories stay clean** when a complete run and its entry are written to free slots. -/
theorem CleanDir.insert (h : CleanDir checked (as ++ (ws ++ bs))) (has : ∀ r ∈ as, r 0 ≠ 0x00)
    (hws : ∀ r ∈ ws, r.IsFree) (hlen : ws.length = ls.length + 1)
    (hrun : RunAt checked (ls ++ [e]) 0 ls.length e) (hls : ∀ r ∈ ls, r.IsLfn) :
    CleanDir checked (as ++ (ls ++ [e] ++ bs)) := by
  have hnewlen : (ls ++ [e]).length = ws.length := by
    rw [List.length_append, List.length_singleton, hlen]
  have hsame : ∀ j, j < as.length ∨ as.length + ws.length ≤ j →
      (as ++ (ls ++ [e] ++ bs))[j]? = (as ++ (ws ++ bs))[j]? := by
    intro j hj
    rcases hj with hj | hj
    · rw [List.getElem?_append_left hj, List.getElem?_append_left hj]
    · have hle : as.length ≤ j := by omega
      have hle' : ws.length ≤ j - as.length := by omega
      rw [List.getElem?_append_right hle, List.getElem?_append_right hle,
        List.getElem?_append_right (hnewlen.trans_le hle'), List.getElem?_append_right hle', hnewlen]
  have hfree : ∀ j, as.length ≤ j → j < as.length + ws.length → FreeAt (as ++ (ws ++ bs)) j := by
    intro j hj hj'
    have hget : (as ++ (ws ++ bs))[j]? = ws[j - as.length]? := by
      rw [List.getElem?_append_right hj, List.getElem?_append_left (by omega)]
    have hlt : j - as.length < ws.length := by omega
    rw [List.getElem?_eq_getElem hlt] at hget
    exact ⟨_, hget, hws _ (List.getElem_mem hlt)⟩
  have hnew : ∀ j, j < ls.length + 1 →
      (as ++ (ls ++ [e] ++ bs))[as.length + j]? = (ls ++ [e])[j]? := by
    intro j hj
    rw [List.getElem?_append_right (Nat.le_add_right ..), Nat.add_sub_cancel_left,
      List.getElem?_append_left (by omega)]
  refine ⟨h.zeroTail.insert has fun r hr => ?_, fun i r hr hlfn => ?_⟩
  · rcases List.mem_append.1 hr with hr | hr
    · exact fun h₀ => (hls r hr).1 (Or.inl h₀)
    · rw [List.mem_singleton.1 hr]
      exact fun h₀ => hrun.isEntry.not_free (Or.inl h₀)
  · by_cases hout : i < as.length ∨ as.length + ws.length ≤ i
    · rw [hsame i hout] at hr
      obtain ⟨p, n, e', hp, hpn, hold⟩ := h.runs i r hr hlfn
      refine ⟨p, n, e', hp, hpn, hold.congr fun j hj hj' => hsame j ?_⟩
      by_contra hin
      exact hold.not_freeAt hj hj' (hfree j (by omega) (by omega))
    · obtain ⟨j, rfl⟩ := Nat.exists_eq_add_of_le (show as.length ≤ i by omega)
      rw [hnew j (by omega)] at hr
      have hj : j < ls.length := by
        by_contra hge
        obtain rfl : j = ls.length := by omega
        rw [List.getElem?_append_right (le_refl _), Nat.sub_self] at hr
        exact hrun.isEntry.not_lfn (Option.some.inj hr ▸ hlfn.2)
      refine ⟨as.length, ls.length, e, Nat.le_add_right .., by omega, ?_, hrun.isEntry,
        fun i hi => ?_⟩
      · rw [hnew _ (Nat.lt_succ_self _), ← hrun.entry, Nat.zero_add]
      · obtain ⟨r', hr', hrest⟩ := hrun.fragment i hi
        rw [Nat.zero_add] at hr'
        exact ⟨r', by rw [hnew i (by omega)]; exact hr', hrest⟩

end Clean

/-! ## Directories in one piece -/

section Flat

variable {κ : Type} {callback : Visitor κ} {context : κ}

theorem iterates_flat (hD : Flat g d D) {r : Int × κ} : Iterates g d callback D context r ↔
    r = ((visitList callback (dirBase g D) (records g d D) 0 context).1.getD eok,
      (visitList callback (dirBase g D) (records g d D) 0 context).2) := by
  have hrun : Iterates g d callback D context
      ((visitList callback (dirBase g D) (records g d D) 0 context).1.getD eok,
        (visitList callback (dirBase g D) (records g d D) 0 context).2) := by
    have hyields : Yields ((iterateDirectory .target D callback context).run g (fun _ => none)
        (clean d)) _ := ⟨2, iterateDirectory_clean .target hD (le_refl 2) callback context⟩
    exact ((yields_iterateDirectory .target).1 hyields).1
  exact ⟨fun hr => hr.unique hrun, fun hr => hr ▸ hrun⟩

/-- Lookups in a directory in one piece. -/
theorem looks_flat (hD : Flat g d D) {found : Option Found} : Looks g d D name found ↔
    scanResult name (dirBase g D) 0 FindCtx.zero (records g d D) = found := by
  rw [← scan_finds]
  constructor
  · rintro ⟨r, hiter, rfl⟩
    rw [(iterates_flat hD).1 hiter]
  · rintro rfl
    exact ⟨_, (iterates_flat hD).2 rfl, rfl⟩

/-- A lookup that fails: no entry matches. -/
theorem Looks.not_matches (hD : Flat g d D) (h : Looks g d D name none) :
    ∀ v ∈ sightings scanBuffer 0 emptyBuffer (records g d D), ¬ v.Matches name := by
  intro v hv hmatch
  have hnone := (looks_flat hD).1 h
  unfold scanResult at hnone
  split at hnone
  · exact absurd hnone (by simp)
  · rename_i hall
    exact absurd hmatch (by simpa using List.find?_eq_none.1 hall v hv)

end Flat

/-! ## Insertion -/

section Insert

variable {checked : Bool} {attributes : UInt8} {cluster size a p : Nat}
  {kmalloc : Nat → Option Sector}

/-- The fragments of a name do not reach behind the long-name buffer. -/
theorem clearBuffer_lfnRecords (hname : Ascii name) (hlen : name.length ≤ 247) (chksum : UInt8)
    (b : Nat → UInt8) :
    clearBuffer ((lfnRecords name chksum).foldl putFragment b) = clearBuffer b := by
  have hlfns : ∀ r ∈ lfnRecords name chksum, r.IsLfn := isLfn_lfnRecords (by omega)
  funext k
  unfold clearBuffer
  split
  · rfl
  · rw [← bufferAfter_lfns hlfns, bufferAfter_lfnRecords hname (by omega), if_neg]
    unfold lfnCount
    omega

theorem slice_short {sfn : List UInt8} (hsfn : sfn.length = 11) :
    slice (sfnRecord sfn attributes cluster size) 0 11 = sfn := by
  refine List.ext_getElem (by simp [slice, hsfn]) fun k hk hk' => ?_
  simp only [slice, List.getElem_map, List.getElem_range, Nat.zero_add]
  rw [sfnRecord_of_lt hsfn (by omega), List.getD_eq_getElem _ _ hk']

/-- The records of a new entry are a complete run and its entry. -/
theorem runAt_newRecords {sfn : List UInt8} (hsfn : sfn.length = 11) (hlen : name.length ≤ 255)
    (he : (sfnRecord sfn attributes cluster size).IsEntry) :
    RunAt checked (newRecords name sfn attributes cluster size) 0 (lfnCount name)
      (sfnRecord sfn attributes cluster size) := by
  have hcount := lfnCount_le hlen
  rw [newRecords_eq]
  refine ⟨?_, he, fun i hi => ?_⟩
  · rw [Nat.zero_add, List.getElem?_append_right (by rw [length_lfnRecords]), length_lfnRecords,
      Nat.sub_self]
    rfl
  · refine ⟨lfnRecord name (lfnChecksum sfn) (lfnCount name - i) (i = 0), ?_,
      isLfn_lfnRecord _ _ _ (by omega) (by omega), ?_, fun _ => ?_⟩
    · rw [Nat.zero_add, List.getElem?_append_left (by rwa [length_lfnRecords]), lfnRecords,
        List.getElem?_map, List.getElem?_range hi]
      rfl
    · rw [lfnRecord_zero]
      simp
    · rw [slice_short hsfn, lfnRecord_of_not_unit (by omega)]
      rfl

/-- A returning insertion in a directory in one piece. -/
theorem insertion_flat (hD : Flat g d D) {r : Int × Io}
    (h : Yields ((insertEntry D name attributes cluster size).run g kmalloc (clean d)) r) :
    (r = (-enospc, clean d) ∧ ¬ HasRoom (records g d D) (lfnCount name + 1)) ∨
    ∃ a p, FirstFree g d D name a ∧ Window (records g d D) p (lfnCount name + 1) ∧
      r = (eok, clean (putRecords d (dirBase g D) p
        (newRecords name (generateShortName name a) attributes cluster size))) := by
  obtain ⟨a, s, hfirst, hiter, hr⟩ := yields_insertEntry.1 h
  obtain rfl := (iterates_flat hD).1 hiter
  rcases slotSearch_spec (records g d D) (dirBase g D) (Nat.succ_pos (lfnCount name)) with
    ⟨hdone, hroom⟩ | ⟨p, hdone⟩
  · dsimp only at hr
    rw [hdone] at hr
    exact Or.inl ⟨hr, hroom⟩
  · refine Or.inr ⟨a, p, hfirst, hdone.window, ?_⟩
    dsimp only at hr
    rw [hdone.done, hdone.startSector, hdone.startSlot, if_pos rfl] at hr
    rw [hr, streamed_putRecords g]

/-- What an insertion into a clean directory does: the directory is clean again, only bytes of free
slots have changed, the names of the new entry find it, and other names find what they did. -/
structure CleanInsertion (checked : Bool) (g : Geometry) (d : Disk) (D : Nat) (name : Name)
    (attributes : UInt8) (cluster size a : Nat) (d' : Disk) : Prop where
  flat : Flat g d' D
  clean : CleanDir checked (records g d' D)
  changed : ∀ lba k, d' lba k ≠ d lba k → ∃ q, q < 16 * dirSectors g D ∧
    (slotAt d (dirBase g D) q).IsFree ∧ AtPlace (dirBase g D + q / 16, q % 16) lba k
  found : ∀ n, SameName n name ∨ SameName n (tempTarget (generateShortName name a)) →
    ∃ found, Looks g d' D n (some found) ∧
      slice found.entry 0 11 = generateShortName name a ∧ found.entry.attributes = attributes ∧
      found.entry.startingCluster = cluster ∧ found.entry.fileSize = size
  others : ∀ n, ¬ SameName n name → ¬ SameName n (tempTarget (generateShortName name a)) →
    ∀ found, Looks g d' D n found ↔ Looks g d D n found

/-- A directory in one piece keeps its form when sectors behind the FAT change. -/
theorem Flat.congr {d' : Disk} (hD : Flat g d D)
    (hentry : D ≠ 0 → g.fatStartSector + D / 256 < g.rootDirSector)
    (h : ∀ lba, lba < g.rootDirSector → d' lba = d lba) : Flat g d' D := by
  rcases hD with hroot | ⟨h2, h8, heof⟩
  · exact Or.inl hroot
  · refine Or.inr ⟨h2, h8, ?_⟩
    have hlt := hentry (by omega)
    unfold fat
    rw [h _ (by omega)]
    exact heof

/-- **Lookups in a clean directory** with the records of a new entry in free slots. -/
theorem scanResult_newRecords {as ws bs : List Record} {base : Nat} {sfn : List UInt8}
    (hclean : CleanDir checked (as ++ (ws ++ bs))) (has : ∀ r ∈ as, r 0 ≠ 0x00)
    (hws : ∀ r ∈ ws, r.IsFree) (hcount : ws.length = lfnCount name + 1) (hname : Ascii name)
    (hne : 1 ≤ name.length) (hlen : name.length ≤ 247) (hsfn : sfn.length = 11)
    (he : (sfnRecord sfn attributes cluster size).IsEntry) (n : Name) :
    (¬ (SameName n name ∨ SameName n (tempTarget sfn)) →
      scanResult n base 0 FindCtx.zero
          (as ++ (newRecords name sfn attributes cluster size ++ bs)) =
        scanResult n base 0 FindCtx.zero (as ++ (ws ++ bs))) ∧
    (SameName n name ∨ SameName n (tempTarget sfn) →
      (∀ v ∈ sightings scanBuffer 0 emptyBuffer (as ++ (ws ++ bs)), ¬ v.Matches n) →
      scanResult n base 0 FindCtx.zero
          (as ++ (newRecords name sfn attributes cluster size ++ bs)) =
        some ⟨sfnRecord sfn attributes cluster size, base + (as.length + lfnCount name) / 16,
          (as.length + lfnCount name) % 16⟩) := by
  have hls : ∀ r ∈ lfnRecords name (lfnChecksum sfn), r.IsLfn := isLfn_lfnRecords (by omega)
  have hlsCount : ws.length = (lfnRecords name (lfnChecksum sfn)).length + 1 := by
    rw [hcount, length_lfnRecords]
  have hwsne : ws ≠ [] := List.ne_nil_of_length_pos (by omega)
  have hmatch : Visit.Matches n ⟨as.length + (lfnRecords name (lfnChecksum sfn)).length,
      (lfnRecords name (lfnChecksum sfn)).foldl putFragment (as.foldl scanBuffer emptyBuffer),
      sfnRecord sfn attributes cluster size⟩ ↔ SameName n name ∨ SameName n (tempTarget sfn) := by
    rw [← bufferAfter_lfns hls]
    -- the buffer is empty in front of the new records
    exact matches_new hname (List.ne_nil_of_length_pos hne) (by omega)
      (hclean.terminated has hwsne hws (by omega)) hsfn
  rw [← hmatch, ← length_lfnRecords name (lfnChecksum sfn)]
  exact scanResult_insert has hws hlsCount hls he hclean.zeroTail
    (clearBuffer_lfnRecords hname hlen _ _) FindCtx.zero.out n

/-- Records in a window change only bytes of free slots. -/
theorem Window.changes {n : Nat} (h : Window (records g d D) p n) {ns : List Record}
    (hns : ns.length = n) {lba k : Nat} (hne : putRecords d (dirBase g D) p ns lba k ≠ d lba k) :
    ∃ q, q < 16 * dirSectors g D ∧ (slotAt d (dirBase g D) q).IsFree ∧
      AtPlace (dirBase g D + q / 16, q % 16) lba k := by
  obtain ⟨place, hplace, hat⟩ := putRecords_changes hne
  obtain ⟨q, hq, rfl⟩ := List.mem_map.1 hplace
  rw [hns, List.mem_range'_1] at hq
  obtain ⟨r, hr, hfree⟩ := h.free q hq.1 hq.2
  have hlt := (List.getElem?_eq_some_iff.1 hr).1
  rw [records, length_slots] at hlt
  rw [records, slots, List.getElem?_map, List.getElem?_range' hlt, Nat.zero_add, Nat.one_mul] at hr
  exact ⟨q, hlt, (Option.some.inj hr).symm ▸ hfree, hat⟩

/-- The new records in the free slots of a clean directory. -/
theorem clean_insertion (hD : Flat g d D)
    (hentry : D ≠ 0 → g.fatStartSector + D / 256 < g.rootDirSector)
    (hclean : CleanDir checked (records g d D)) (hname : Ascii name) (hne : 1 ≤ name.length)
    (hlen : name.length ≤ 247)
    (hnew : ∀ v ∈ sightings scanBuffer 0 emptyBuffer (records g d D), ¬ v.Matches name)
    (hlfn : attributes ≠ attrLfn) (hlabel : attributes ≠ attrVolumeId) (hcluster : cluster < 65536)
    (hsize : size < 2 ^ 32) (hfirst : FirstFree g d D name a)
    (hwindow : Window (records g d D) p (lfnCount name + 1)) :
    CleanInsertion checked g d D name attributes cluster size a
      (putRecords d (dirBase g D) p
        (newRecords name (generateShortName name a) attributes cluster size)) := by
  obtain ⟨as, ws, bs, hrs, rfl, hws, hfree, has⟩ :=
    hwindow.split (Nat.succ_pos _) hclean.zeroTail
  have hsfn := length_generateShortName name a
  have hhead := head_generateShortName hname a
  have he : (sfnRecord (generateShortName name a) attributes cluster size).IsEntry :=
    isEntry_sfnRecord hsfn hhead.1 hhead.2.1 hlfn hlabel
  have hls : ∀ r ∈ lfnRecords name (lfnChecksum (generateShortName name a)), r.IsLfn :=
    isLfn_lfnRecords (by omega)
  have hrs' : records g (putRecords d (dirBase g D) as.length
      (newRecords name (generateShortName name a) attributes cluster size)) D =
      as ++ (newRecords name (generateShortName name a) attributes cluster size ++ bs) :=
    slots_putRecords (clipped_newRecords hsfn) d as ws bs hrs
      (hws.trans (length_newRecords _ _ _ _ _).symm)
  have hsites : CleanDir checked (as ++ (ws ++ bs)) := hrs ▸ hclean
  have hscan := fun n =>
    @scanResult_newRecords name checked attributes cluster size as ws bs (dirBase g D)
      (generateShortName name a) hsites has hfree hws hname hne hlen hsfn he n
  rw [← hrs, ← hrs'] at hscan
  have hlow : ∀ lba, lba < g.rootDirSector → putRecords d (dirBase g D) as.length
      (newRecords name (generateShortName name a) attributes cluster size) lba = d lba := by
    intro lba hlba
    have hbase := g.rootDirSector_le_dirBase D
    exact putRecords_of_not_mem _ _ fun q _ _ => by omega
  have hflat := hD.congr hentry hlow
  refine ⟨hflat, ?_, fun lba k => hwindow.changes (length_newRecords _ _ _ _ _), fun n hn => ?_,
    fun n hlong hshort found => ?_⟩
  · rw [hrs', newRecords_eq]
    refine hsites.insert has hfree (by rw [hws, length_lfnRecords]) ?_ hls
    rw [length_lfnRecords]
    exact runAt_newRecords hsfn (by omega) he
  · have hnone : ∀ v ∈ sightings scanBuffer 0 emptyBuffer (records g d D), ¬ v.Matches n := by
      intro v hv
      rcases hn with hsame | hsame
      · rw [Visit.matches_congr hsame]
        exact hnew v hv
      · rw [Visit.matches_congr hsame]
        exact hfirst.free.not_matches hD v hv
    exact ⟨_, (looks_flat hflat).2 ((hscan n).2 hn hnone), slice_short hsfn, attributes_sfnRecord,
      startingCluster_sfnRecord hcluster, fileSize_sfnRecord hsize⟩
  · rw [looks_flat hflat, looks_flat hD, (hscan n).1 fun hn => hn.elim hlong hshort]

/-- **Insertion into a clean directory.**  It adds the entry under its two names, or it finds no
run of free slots and writes nothing. -/
theorem insert_clean (hD : Flat g d D)
    (hentry : D ≠ 0 → g.fatStartSector + D / 256 < g.rootDirSector)
    (hclean : CleanDir checked (records g d D)) (hname : Ascii name) (hne : 1 ≤ name.length)
    (hlen : name.length ≤ 247)
    (hnew : ∀ v ∈ sightings scanBuffer 0 emptyBuffer (records g d D), ¬ v.Matches name)
    (hlfn : attributes ≠ attrLfn) (hlabel : attributes ≠ attrVolumeId) (hcluster : cluster < 65536)
    (hsize : size < 2 ^ 32) {code : Int} {io : Io}
    (h : Yields ((insertEntry D name attributes cluster size).run g kmalloc (clean d)) (code, io)) :
    (code = eok ∧ ∃ a d', io = clean d' ∧ FirstFree g d D name a ∧
      CleanInsertion checked g d D name attributes cluster size a d') ∨
    (code = -enospc ∧ io = clean d ∧ ¬ HasRoom (records g d D) (lfnCount name + 1)) := by
  rcases insertion_flat hD h with ⟨heq, hroom⟩ | ⟨a, p, hfirst, hwindow, heq⟩
  · obtain ⟨rfl, rfl⟩ := Prod.mk.inj heq
    exact Or.inr ⟨rfl, rfl, hroom⟩
  · obtain ⟨rfl, rfl⟩ := Prod.mk.inj heq
    exact Or.inl ⟨rfl, a, _, rfl, hfirst, clean_insertion hD hentry hclean hname hne hlen hnew hlfn
      hlabel hcluster hsize hfirst hwindow⟩

/-- The slots of the root directory, 16 of them. -/
def rootSlot (d : Disk) (i : Nat) : Record := slotAt d (dirBase wideGeometry 0) i

theorem rootSlot_eq {i : Nat} (hi : i < 16) :
    (records wideGeometry d 0)[i]? = some (rootSlot d i) := by
  have hlen : i < 16 * dirSectors wideGeometry 0 := hi
  rw [records, slots, List.getElem?_map, List.getElem?_range' hlen, Nat.one_mul, Nat.zero_add]
  rfl

theorem rootSlot_mem {r : Record} (hr : r ∈ records wideGeometry d 0) :
    ∃ i < 16, r = rootSlot d i := by
  obtain ⟨i, hi⟩ := List.mem_iff_getElem?.1 hr
  have hlt : i < 16 := (List.getElem?_eq_some_iff.1 hi).1
  rw [rootSlot_eq hlt] at hi
  exact ⟨i, hlt, (Option.some.inj hi).symm⟩

/-- A root directory that holds one run and its entry. -/
theorem cleanDir_root (n : Nat) (hn : n < 16) (he : (rootSlot d n).IsEntry)
    (hrun : ∀ i < n, (rootSlot d i).IsLfn ∧
      rootSlot d i 0 = (UInt8.ofNat (n - i) ||| if i = 0 then 0x40 else 0) ∧
      rootSlot d i 13 = lfnChecksum (slice (rootSlot d n) 0 11))
    (hrest : ∀ i < 16, n < i → rootSlot d i 0 = 0x00) :
    CleanDir true (records wideGeometry d 0) := by
  refine cleanDir_of_run (n := n) (e := rootSlot d n) ⟨?_, he, fun i hi => ?_⟩ fun i r hr hlt => ?_
  · rw [Nat.zero_add, rootSlot_eq hn]
  · rw [Nat.zero_add]
    obtain ⟨hlfn, hsequence, hchecksum⟩ := hrun i hi
    exact ⟨_, rootSlot_eq (by omega), hlfn, hsequence, fun _ => hchecksum⟩
  · have hi : i < 16 := (List.getElem?_eq_some_iff.1 hr).1
    rw [rootSlot_eq hi] at hr
    exact Option.some.inj hr ▸ hrest i hi hlt

theorem cleanDir_oneEntry : CleanDir true (records wideGeometry oneEntry 0) :=
  cleanDir_root 1 (by decide) (by decide +kernel) (by decide +kernel) (by decide +kernel)

/-- The name `a` with a space behind it goes there too: its first attempt is the short name of the
other entry. -/
theorem insert_clean_collision : ∃ a d', 1 < a ∧
    clean (after (insertEntry 0 [0x61, 0x20] attrArchive 0 0) oneEntry) = clean d' ∧
    FirstFree wideGeometry oneEntry 0 [0x61, 0x20] a ∧
    CleanInsertion true wideGeometry oneEntry 0 [0x61, 0x20] attrArchive 0 0 a d' := by
  have hrun : Yields ((insertEntry 0 [0x61, 0x20] attrArchive 0 0).run wideGeometry
      (fun _ => none) (clean oneEntry))
      (eok, clean (after (insertEntry 0 [0x61, 0x20] attrArchive 0 0) oneEntry)) :=
    succeeds_after (regular_insertEntry 0 [0x61, 0x20] attrArchive 0 0) (by decide +kernel)
  obtain ⟨-, a, d', heq, hfirst, hins⟩ | ⟨hcode, -⟩ :=
    insert_clean (Or.inl rfl) (fun h => absurd rfl h) cleanDir_oneEntry (by decide)
      (by decide) (by decide) (by decide +kernel) (by decide) (by decide) (by decide) (by decide) hrun
  · refine ⟨a, d', ?_, heq, hfirst, hins⟩
    by_contra hle
    obtain rfl : a = 1 := Nat.le_antisymm (Nat.le_of_not_lt hle) hfirst.pos
    have hnone := (looks_flat (Or.inl rfl)).1 hfirst.free
    have hsome : (scanResult (candidate [0x61, 0x20] 1) (dirBase wideGeometry 0) 0 FindCtx.zero
      (records wideGeometry oneEntry 0)).isSome := by decide +kernel
    rw [hnone] at hsome
    exact absurd hsome (by decide)
  · exact absurd hcode (by decide)

end Insert

end Fat16

end BenmoshOS
