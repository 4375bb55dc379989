import BenmoshOS.Fat16.Places
import BenmoshOS.Fat16.Reclaim

/-!
# FAT16: the search for a short name

`fat16_insert_entry` tries the numeric tails `~1`, `~2`, … until a lookup of the short name fails.
The loop has no bound of its own.

* `candidate_inj` — the names of the attempts 1 to 999 differ from one another.
* `length_names_le` — the entries of a directory have at most as many names as it has slots.
* `short_name_found` — so a directory of up to 998 slots leaves one of these attempts free.
-/

namespace BenmoshOS

namespace Fat16

open Exec (Yields Halts)
open Fs

variable {name : Name} {a b : Nat}

/-! ## The names of the attempts -/

section Generator

/-- The characters of the base name that attempt `a` keeps in front of its tail. -/
def keptBase (name : Name) (a : Nat) : List UInt8 :=
  (baseName name).take (if (baseName name).length + (numericTail a).length > 8
    then 8 - (numericTail a).length else (baseName name).length)

/-- The extension with its dot, as it is looked up. -/
def dottedExtension (name : Name) : List UInt8 :=
  if (padTo 3 (extensionOf name)).headD space ≠ space then
    dot :: (padTo 3 (extensionOf name)).filter (· ≠ space)
  else []

theorem length_keptBase (name : Name) (a : Nat) :
    (keptBase name a ++ numericTail a).length ≤ 8 := by
  have htail := length_numericTail a
  rw [List.length_append, keptBase, List.length_take]
  split
  · omega
  · omega

theorem take_generateShortName (name : Name) (a : Nat) :
    (generateShortName name a).take 8 = padTo 8 (keptBase name a ++ numericTail a) := by
  have hlen := length_padTo (length_keptBase name a)
  exact List.take_left' hlen

theorem drop_generateShortName (name : Name) (a : Nat) :
    (generateShortName name a).drop 8 = padTo 3 (extensionOf name) := by
  have hlen := length_padTo (length_keptBase name a)
  exact List.drop_left' hlen

theorem upper_ne (c : UInt8) : (c ≠ 0 → upper c ≠ 0) ∧ (c ≠ space → upper c ≠ space) ∧
    (c ≠ dot → lower (upper c) ≠ dot) := by
  unfold upper lower space dot
  grind

theorem mem_keptBase {c : UInt8} (h : c ∈ keptBase name a) :
    ∃ c' ∈ name, c' ≠ dot ∧ c' ≠ space ∧ c = upper c' := by
  obtain ⟨c', hc', rfl⟩ := List.mem_map.1 (List.mem_of_mem_take h)
  obtain ⟨hword, hspace⟩ := List.mem_filter.1 (List.mem_of_mem_take hc')
  exact ⟨c', (List.takeWhile_prefix _).subset hword, by simpa using List.mem_takeWhile_imp hword,
    by simpa using hspace, rfl⟩

/-- The digits of a number. -/
def decimal (a : Nat) : List UInt8 := (Nat.toDigits 10 a).map fun c => UInt8.ofNat c.toNat

theorem decimal_of_lt (ha : a < 10) : decimal a = [UInt8.ofNat (a + 0x30)] := by
  rw [decimal, Nat.toDigits_of_lt_base ha, List.map_singleton, Nat.toNat_digitChar_of_lt_ten ha,
    Nat.add_comm]

theorem decimal_of_le (ha : 10 ≤ a) :
    decimal a = decimal (a / 10) ++ [UInt8.ofNat (a % 10 + 0x30)] := by
  have hmod := Nat.toNat_digitChar_of_lt_ten (Nat.mod_lt a (show 0 < 10 by decide))
  rw [decimal, Nat.toDigits_of_base_le (by decide) ha, List.map_append, List.map_singleton, hmod,
    Nat.add_comm 48]
  rfl

/-- Behind its `~` the tail of an attempt below 1000 is the decimal number. -/
theorem numericTail_eq (a : Nat) (ha : a < 1000) : numericTail a = tilde :: decimal a := by
  unfold numericTail
  split_ifs with h₁ h₂
  · rw [decimal_of_lt h₁]
  · rw [decimal_of_le (by omega), decimal_of_lt (by omega)]
    rfl
  · rw [decimal_of_le (by omega), decimal_of_le (by omega), decimal_of_lt (by omega),
      Nat.div_div_eq_div_mul]
    rfl

theorem mem_decimal {c : UInt8} (h : c ∈ decimal a) : 0x30 ≤ c ∧ c ≤ 0x39 := by
  obtain ⟨ch, hch, rfl⟩ := List.mem_map.1 h
  have hdigit := Nat.isDigit_of_mem_toDigits (by decide) (by decide) hch
  obtain ⟨hlow, hhigh⟩ := Char.isDigit_iff_toNat.1 hdigit
  rw [UInt8.le_iff_toNat_le, UInt8.le_iff_toNat_le, UInt8.toNat_ofNat']
  rw [Nat.mod_eq_of_lt (Nat.lt_of_le_of_lt hhigh (by decide))]
  exact ⟨hlow, hhigh⟩

theorem digit_facts (c : UInt8) (hc : 0x30 ≤ c ∧ c ≤ 0x39) :
    c ≠ 0 ∧ c ≠ space ∧ lower c ≠ dot ∧ lower c ≠ tilde ∧ lower c = c := by
  unfold lower space dot tilde
  grind

theorem digit_inj {m n : Nat} (hm : m ≤ 9) (hn : n ≤ 9)
    (h : UInt8.ofNat (m + 0x30) = UInt8.ofNat (n + 0x30)) : m = n := by
  have h := congrArg UInt8.toNat h
  rw [UInt8.toNat_ofNat', UInt8.toNat_ofNat'] at h
  omega

theorem numericTail_inj (ha : a ≤ 999) (hb : b ≤ 999) (h : numericTail a = numericTail b) :
    a = b := by
  unfold numericTail at h
  split_ifs at h
  · obtain ⟨-, h⟩ := List.cons_eq_cons.1 h
    exact digit_inj (by omega) (by omega) (List.cons_eq_cons.1 h).1
  all_goals simp only [List.cons.injEq, reduceCtorEq, and_false, and_true, true_and] at h
  · have h₁ := digit_inj (by omega) (by omega) h.1
    have h₀ := digit_inj (by omega) (by omega) h.2
    omega
  · have h₂ := digit_inj (by omega) (by omega) h.1
    have h₁ := digit_inj (by omega) (by omega) h.2.1
    have h₀ := digit_inj (by omega) (by omega) h.2.2
    omega

/-- The part of the short name in front of its dot. -/
theorem mem_base_facts (hname : 0 ∉ name) (ha : a < 1000) {c : UInt8}
    (h : c ∈ keptBase name a ++ numericTail a) : c ≠ 0 ∧ c ≠ space ∧ lower c ≠ dot := by
  rcases List.mem_append.1 h with h | h
  · obtain ⟨c', hc', hdot, hspace, rfl⟩ := mem_keptBase h
    obtain ⟨h₀, h₁, h₂⟩ := upper_ne c'
    exact ⟨h₀ fun hzero => hname (hzero ▸ hc'), h₁ hspace, h₂ hdot⟩
  · rw [numericTail_eq a ha] at h
    rcases List.mem_cons.1 h with rfl | h
    · decide
    · obtain ⟨h₀, h₁, h₂, -, -⟩ := digit_facts c (mem_decimal h)
      exact ⟨h₀, h₁, h₂⟩

theorem mem_dottedExtension {c : UInt8} (hname : 0 ∉ name) (h : c ∈ dottedExtension name) :
    c ≠ 0 := by
  unfold dottedExtension at h
  split at h
  · rcases List.mem_cons.1 h with rfl | h
    · decide
    · have h := (List.mem_filter.1 h).1
      rcases List.mem_append.1 h with h | h
      · unfold extensionOf at h
        split at h
        · obtain ⟨c', hc', rfl⟩ := List.mem_map.1 h
          have hmem := List.mem_reverse.1 (List.mem_of_mem_take hc')
          have hmem := List.mem_reverse.1 ((List.takeWhile_prefix _).subset hmem)
          exact (upper_ne c').1 fun hzero => hname (hzero ▸ hmem)
        · exact absurd h (by simp)
      · rw [List.eq_of_mem_replicate h]
        decide
  · exact absurd h (by simp)

/-- **The name of an attempt**: what is kept of the base name, the tail and the extension. -/
theorem candidate_eq (hname : 0 ∉ name) (ha : a < 1000) :
    candidate name a = keptBase name a ++ numericTail a ++ dottedExtension name := by
  have hfilter : (padTo 8 (keptBase name a ++ numericTail a)).filter (· ≠ space) =
      keptBase name a ++ numericTail a := by
    unfold padTo
    rw [List.filter_append, List.filter_eq_self.2, List.filter_eq_nil_iff.2, List.append_nil]
    · intro c hc
      rw [List.eq_of_mem_replicate hc]
      decide
    · intro c hc
      simpa using (mem_base_facts hname ha hc).2.1
  have hdotted : dotted ((generateShortName name a).take 8) ((generateShortName name a).drop 8) =
      keptBase name a ++ numericTail a ++ dottedExtension name := by
    rw [take_generateShortName, drop_generateShortName, dotted, hfilter]
    rfl
  rw [candidate, tempTarget, hdotted]
  refine List.takeWhile_eq_self_iff.2 fun c hc => ?_
  rcases List.mem_append.1 hc with hc | hc
  · simpa using (mem_base_facts hname ha hc).1
  · simpa using mem_dottedExtension hname hc

/-- The text in front of the first dot is not changed by what follows it. -/
theorem takeWhile_candidate (hname : 0 ∉ name) (ha : a < 1000) :
    ((candidate name a).map lower).takeWhile (· ≠ dot) =
      (keptBase name a ++ numericTail a).map lower := by
  have hext : ((dottedExtension name).map lower).takeWhile (· ≠ dot) = [] := by
    unfold dottedExtension
    split
    · exact List.takeWhile_cons_of_neg (by decide)
    · rfl
  rw [candidate_eq hname ha, List.map_append, List.takeWhile_append_of_pos, hext, List.append_nil]
  · intro c hc
    obtain ⟨c', hc', rfl⟩ := List.mem_map.1 hc
    simpa using (mem_base_facts hname ha hc').2.2

/-- **The attempts differ.**  The digits behind the last `~` of the base name tell which attempt
a name belongs to, also when the long name has such characters itself. -/
theorem candidate_inj (hname : 0 ∉ name) (ha : a ≤ 999) (hb : b ≤ 999)
    (h : SameName (candidate name a) (candidate name b)) : a = b := by
  have hdigits : ∀ a < 1000, ((keptBase name a ++ numericTail a).map lower).reverse.takeWhile
      (· ≠ tilde) = (decimal a).reverse := by
    intro a ha
    have hlower : (decimal a).map lower = decimal a := by
      refine (List.map_congr_left fun c hc => ?_).trans (List.map_id _)
      exact (digit_facts c (mem_decimal hc)).2.2.2.2
    have htilde : ∀ l, ([lower tilde] ++ l).takeWhile (· ≠ tilde) = [] :=
      fun l => List.takeWhile_cons_of_neg (by decide)
    rw [numericTail_eq a ha, List.map_append, List.map_cons, hlower, List.reverse_append,
      List.reverse_cons, List.append_assoc, List.takeWhile_append_of_pos, htilde, List.append_nil]
    · intro c hc
      have hfacts := digit_facts c (mem_decimal (List.mem_reverse.1 hc))
      rw [hfacts.2.2.2.2] at hfacts
      simpa using hfacts.2.2.2.1
  have hbase := congrArg (List.takeWhile (· ≠ dot)) (show (candidate name a).map lower = _ from h)
  rw [takeWhile_candidate hname (by omega), takeWhile_candidate hname (by omega)] at hbase
  have htail := congrArg (fun l => (List.takeWhile (· ≠ tilde) l.reverse)) hbase
  simp only [hdigits a (by omega), hdigits b (by omega)] at htail
  have hdec := List.reverse_injective htail
  refine numericTail_inj ha hb ?_
  rw [numericTail_eq a (by omega), numericTail_eq b (by omega), hdec]

/-- The base of the short name: characters of the long one, the number of the attempt, spaces. -/
theorem generateShortName_shape (name : Name) (ha : a < 1000) : ∃ kept n,
    kept <+: ((name.takeWhile (· ≠ dot)).filter (· ≠ space)).map upper ∧
      (generateShortName name a).take 8 = kept ++ tilde :: decimal a ++ List.replicate n space := by
  refine ⟨keptBase name a, 8 - (keptBase name a ++ numericTail a).length, ?_, ?_⟩
  · unfold keptBase baseName
    rw [List.map_take]
    exact (List.take_prefix _ _).trans (List.take_prefix _ _)
  · rw [take_generateShortName, padTo, numericTail_eq a ha]

end Generator

/-! ## The names of the entries -/

section Names

variable {p : Nat} {buf : Nat → UInt8} {rs : List Record}

/-- The names under which a lookup accepts an entry: the long one, if it has one, and the short
one. -/
def Visit.names (v : Visit) : List Name :=
  (if v.buffer 0 ≠ 0 then [cString (slice v.buffer 0 260)] else []) ++
    [cString (dotted (slice v.entry 0 8) (slice v.entry 8 3))]

theorem Visit.matches_iff_names (v : Visit) (hv : ∀ k, 260 ≤ k → v.buffer k = 0) {n : Name} :
    v.Matches n ↔ ∃ m ∈ v.names, SameName n m := by
  unfold Visit.Matches Visit.names
  rw [matchSfn_iff]
  by_cases h₀ : v.buffer 0 = 0
  · simp [h₀]
  · simp [h₀, Visit.matchFrom_buffer hv]

/-- **Counting.**  Every name but the first long one takes a slot of its own: a fragment or an
entry. -/
theorem length_names_le : ∀ (rs : List Record) (p : Nat) (buf : Nat → UInt8),
    ((sightings scanBuffer p buf rs).flatMap Visit.names).length ≤
      rs.length + if buf 0 ≠ 0 then 1 else 0 := by
  intro rs
  induction rs with
  | nil => intro p buf; simp [sightings]
  | cons r rs ih =>
      intro p buf
      by_cases h₀ : r 0 = 0x00
      · rw [sightings_end h₀]
        simp
      · by_cases he : r.IsEntry
        · have hclear : scanBuffer buf r 0 = 0 := by
            rw [scanBuffer_entry he]
            rfl
          have hrest := ih (p + 1) (scanBuffer buf r)
          rw [if_neg (not_not_intro hclear), Nat.add_zero] at hrest
          rw [sightings_entry he, List.flatMap_cons, List.length_append, List.length_cons]
          have hown : (Visit.names ⟨p, buf, r⟩).length = 1 + if buf 0 ≠ 0 then 1 else 0 := by
            unfold Visit.names
            dsimp only
            split
            · rfl
            · rfl
          omega
        · rw [sightings_skip h₀ he, List.length_cons]
          have hrest := ih (p + 1) (scanBuffer buf r)
          by_cases hlfn : r.IsLfn
          · split at hrest
            · omega
            · omega
          · have hbuf : scanBuffer buf r 0 ≠ 0 → buf 0 ≠ 0 := by
              by_cases hends : r.EndsName
              · rw [(scanBuffer_ends hends).1]
                exact fun h => absurd rfl h
              · rw [(scanBuffer_other h₀ hends hlfn).1]
                exact id
            split at hrest
            · rename_i hne
              rw [if_pos (hbuf hne)]
              omega
            · omega

/-- Of 999 attempts one is left free by the entries of 998 slots. -/
theorem exists_free_attempt (hname : 0 ∉ name) (hlen : rs.length ≤ 998) :
    ∃ a, 1 ≤ a ∧ a ≤ 999 ∧
      ∀ v ∈ sightings scanBuffer 0 emptyBuffer rs, ¬ v.Matches (candidate name a) := by
  by_contra hnone
  push Not at hnone
  -- otherwise the attempts would inject into the names of the entries
  have hmaps : ∀ a ∈ Finset.Icc 1 999, (candidate name a).map lower ∈
      (((sightings scanBuffer 0 emptyBuffer rs).flatMap Visit.names).map
        (List.map lower)).toFinset := by
    intro a ha
    obtain ⟨hpos, hle⟩ := Finset.mem_Icc.1 ha
    obtain ⟨v, hv, hmatch⟩ := hnone a hpos hle
    obtain ⟨m, hm, hsame⟩ := (v.matches_iff_names (buffer_high hv)).1 hmatch
    rw [List.mem_toFinset]
    exact List.mem_map.2 ⟨m, List.mem_flatMap.2 ⟨v, hv, hm⟩, hsame.symm⟩
  have hinj : Set.InjOn (fun a => (candidate name a).map lower) (Finset.Icc 1 999) := by
    intro a ha b hb hab
    rw [Finset.mem_coe, Finset.mem_Icc] at ha hb
    exact candidate_inj hname ha.2 hb.2 hab
  have hcard := Finset.card_le_card_of_injOn _ hmaps hinj
  have hnames := length_names_le rs 0 emptyBuffer
  have hset := List.toFinset_card_le
    (((sightings scanBuffer 0 emptyBuffer rs).flatMap Visit.names).map (List.map lower))
  rw [Nat.card_Icc] at hcard
  rw [List.length_map] at hset
  rw [if_neg (show ¬ emptyBuffer 0 ≠ 0 from not_not_intro rfl)] at hnames
  omega

end Names

/-! ## The search -/

section Search

variable {g : Geometry} {d : Disk} {D : Nat} {cs : List Nat} {rs : List Record}

/-- Without a fragment that reaches the flag `found`, a name is found exactly when an entry
matches it. -/
theorem scanResult_isSome (hrs : NoLastFragment rs) (name : Name) :
    (scanResult name 0 0 FindCtx.zero rs).isSome = true ↔
      ∃ v ∈ sightings scanBuffer 0 emptyBuffer rs, v.Matches name := by
  have hlow : LowBuffer (lastBuffer scanBuffer emptyBuffer rs) := by
    refine LowBuffer.foldl (fun _ _ => rfl) (fun b r => LowBuffer.scanBuffer) fun r hr => ?_
    exact ⟨by simpa using List.mem_takeWhile_imp hr, hrs r hr⟩
  have hflag : u32 (lastBuffer scanBuffer emptyBuffer rs) 256 = 0 := by
    unfold u32 u16
    rw [hlow 256 (by omega), hlow 257 (by omega), hlow 258 (by omega), hlow 259 (by omega)]
    rfl
  have hnone : ¬ u32 (lastBuffer scanBuffer FindCtx.zero.lfnBuffer rs) 256 ≠ 0 :=
    not_not_intro hflag
  unfold scanResult
  split
  · rename_i v hv
    have hmatch := List.find?_some hv
    exact iff_of_true rfl ⟨v, List.mem_of_find?_eq_some hv, by simpa using hmatch⟩
  · rename_i hall
    rw [if_neg hnone]
    refine iff_of_false (by simp) ?_
    rintro ⟨v, hv, hmatch⟩
    exact absurd hmatch (by simpa using List.find?_eq_none.1 hall v hv)

/-- The lookups of the attempts in a directory without such fragments. -/
theorem looks_candidate (hD : DirClusters g d D cs) (hrs : NoLastFragment (dirRecords g d D cs))
    (n : Name) : (∃ found, Looks g d D n (some found)) ↔
      ∃ v ∈ sightings scanBuffer 0 emptyBuffer (dirRecords g d D cs), v.Matches n := by
  rw [← scanResult_isSome hrs]
  constructor
  · rintro ⟨found, hfound⟩
    rw [← looks_places hD hfound]
    rfl
  · intro hsome
    obtain ⟨found, hfound⟩ := exists_looks hD n
    rw [← looks_places hD hfound] at hsome
    obtain ⟨found, rfl⟩ := Option.isSome_iff_exists.1 hsome
    exact ⟨found, hfound⟩

theorem exists_firstFree (hD : DirClusters g d D cs) (hrs : NoLastFragment (dirRecords g d D cs))
    (hslots : (dirRecords g d D cs).length ≤ 998) (hname : 0 ∉ name) :
    ∃ a, a ≤ 999 ∧ FirstFree g d D name a ∧
      ∀ v ∈ sightings scanBuffer 0 emptyBuffer (dirRecords g d D cs),
        ¬ v.Matches (candidate name a) := by
  classical
  have hex : ∃ a, 1 ≤ a ∧ ¬ ∃ found, Looks g d D (candidate name a) (some found) := by
    obtain ⟨a, hpos, -, hfree⟩ := exists_free_attempt hname hslots
    refine ⟨a, hpos, fun hfound => ?_⟩
    obtain ⟨v, hv, hmatch⟩ := (looks_candidate hD hrs _).1 hfound
    exact hfree v hv hmatch
  obtain ⟨hpos, hfree⟩ := Nat.find_spec hex
  refine ⟨Nat.find hex, ?_, ⟨hpos, ?_, fun b hb hlt => ?_⟩, fun v hv hmatch => ?_⟩
  · obtain ⟨a, hpos, hle, hfree⟩ := exists_free_attempt hname hslots
    refine (Nat.find_min' hex ⟨hpos, fun hfound => ?_⟩).trans hle
    obtain ⟨v, hv, hmatch⟩ := (looks_candidate hD hrs _).1 hfound
    exact hfree v hv hmatch
  · obtain ⟨found, hfound⟩ := exists_looks hD (candidate name (Nat.find hex))
    cases found with
    | none => exact hfound
    | some found => exact absurd ⟨found, hfound⟩ hfree
  · by_contra hnot
    exact Nat.find_min hex hlt ⟨hb, hnot⟩
  · exact hfree ((looks_candidate hD hrs _).2 ⟨v, hv, hmatch⟩)

/-- **The search for a short name** ends within 999 attempts in every directory of up to 998 slots,
with a name that no entry has. -/
theorem short_name_found (kmalloc : Nat → Option (Nat → UInt8)) (hD : DirClusters g d D cs)
    (hslots : (dirRecords g d D cs).length ≤ 998) (hrs : NoLastFragment (dirRecords g d D cs))
    (hname : 0 ∉ name) :
    (∀ a b, 1 ≤ a → a ≤ 999 → 1 ≤ b → b ≤ 999 → SameName (candidate name a) (candidate name b) →
      a = b) ∧
    ∃ a, 1 ≤ a ∧ a ≤ 999 ∧
      Yields ((Fs.loop (tryShortName D name) 1).run g kmalloc (clean d))
        (generateShortName name a, clean d) ∧
      (∀ v ∈ sightings scanBuffer 0 emptyBuffer (dirRecords g d D cs),
        ¬ v.Matches (tempTarget (generateShortName name a))) ∧
      ∃ kept n, kept <+: ((name.takeWhile (· ≠ dot)).filter (· ≠ space)).map upper ∧
        (generateShortName name a).take 8 = kept ++ tilde :: decimal a ++ List.replicate n space := by
  refine ⟨fun a b _ ha _ hb => candidate_inj hname ha hb, ?_⟩
  obtain ⟨a, hle, hfirst, hfree⟩ := exists_firstFree hD hrs hslots hname
  exact ⟨a, hfirst.pos, hle, yields_shortNameLoop.2 ⟨a, hfirst, rfl⟩, hfree,
    generateShortName_shape name (by omega)⟩

/-- The name `a` with a space behind it in a root directory with the entry `a`: the first attempt is
the short name of that entry, and the search goes on. -/
theorem short_name_found_collision : ∃ a, 1 < a ∧ a ≤ 999 ∧
    Yields ((Fs.loop (tryShortName 0 [0x61, 0x20]) 1).run wideGeometry (fun _ => none)
      (clean oneEntry)) (generateShortName [0x61, 0x20] a, clean oneEntry) ∧
    (∀ v ∈ sightings scanBuffer 0 emptyBuffer (dirRecords wideGeometry oneEntry 0 []),
      ¬ v.Matches (tempTarget (generateShortName [0x61, 0x20] a))) := by
  have hrs : NoLastFragment (dirRecords wideGeometry oneEntry 0 []) := by
    unfold NoLastFragment
    decide +kernel
  obtain ⟨-, a, hpos, hle, hrun, hfree, -⟩ := @short_name_found [0x61, 0x20] wideGeometry oneEntry 0 []
    (fun _ => none)
    (Or.inl ⟨rfl, rfl⟩) (by decide +kernel) hrs (by decide)
  refine ⟨a, ?_, hle, hrun, hfree⟩
  by_contra hnot
  obtain rfl : a = 1 := Nat.le_antisymm (Nat.le_of_not_lt hnot) hpos
  have htaken : ∃ v ∈ sightings scanBuffer 0 emptyBuffer (dirRecords wideGeometry oneEntry 0 []),
      v.Matches (tempTarget (generateShortName [0x61, 0x20] 1)) := by decide +kernel
  obtain ⟨v, hv, hmatch⟩ := htaken
  exact hfree v hv hmatch

end Search

end Fat16

end BenmoshOS
