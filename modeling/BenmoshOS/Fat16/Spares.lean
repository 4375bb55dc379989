import BenmoshOS.Fat16.Trees

/-!
# FAT16: what a change leaves alone

A call writes to free clusters, to the clusters of one file and to free slots of one directory.

* `Spares` — a change that leaves the clusters in use alone, but for those of one file.
* `Preserves` — the directories, the entries and the contents of files that stay the same then.
* `mem_sightings_new` — what scans meet when the records of a new entry lie in free slots.
* `Created`, `Entered` — the records of a new file in a directory of any size.
-/

namespace BenmoshOS

namespace Fat16

open Exec (Yields)
open Fs

variable {g : Geometry} {d d' d₁ d₂ : Disk} {kmalloc : Nat → Option (Nat → UInt8)} {D : Nat}
  {cs ds X : List Nat} {p : Nat × Nat} {ps qs : List (Nat × Nat)} {name : Name}

/-! ## What a change leaves alone -/

section Changes

/-- The change from `d` to `d'` spares the root directory and the clusters in use but those of
`X`: neither their FAT entries nor their bytes are changed, except in the slots `ps`. -/
structure Spares (g : Geometry) (d d' : Disk) (X : List Nat) (ps : List (Nat × Nat)) : Prop where
  fat_eq : ∀ a, g.IsCluster a → fat g d a ≠ 0 → a ∉ X → fat g d' a = fat g d a
  changed : ∀ lba k, g.rootDirSector ≤ lba →
    (∀ c, g.IsCluster c → g.InCluster c lba → fat g d c ≠ 0 ∧ c ∉ X) → d' lba k ≠ d lba k →
    ∃ p ∈ ps, AtPlace p lba k

/-- Of the volume `d` only the slots `ps`, which were free, and the files at `qs` have changed. -/
structure Preserves (g : Geometry) (d d' : Disk) (ps qs : List (Nat × Nat)) : Prop where
  tree : ∀ D cs, Tree g d' D cs ↔ Tree g d D cs
  record : ∀ D cs, Tree g d D cs → ∀ p ∈ dirPlaces g D cs, p ∉ ps → recordOf d' p = recordOf d p
  taken : ∀ c, g.IsCluster c → fat g d c ≠ 0 →
    (∀ q ∈ qs, ∀ ds, Owns g d (recordOf d q).startingCluster ds → c ∉ ds) →
    fat g d' c = fat g d c
  contents : ∀ p, InTree g d p → (recordOf d p).isDirectory = false → p ∉ qs →
    fileBytes g d' (recordOf d p) = fileBytes g d (recordOf d p)

theorem Spares.trans (h : Spares g d d₁ X ps) (h' : Spares g d₁ d₂ X qs) :
    Spares g d d₂ X (ps ++ qs) := by
  have hused : ∀ c, g.IsCluster c → fat g d c ≠ 0 → c ∉ X → fat g d₁ c ≠ 0 :=
    fun c hc hne hX => (h.fat_eq c hc hne hX).symm ▸ hne
  refine ⟨fun a ha hne hX => ?_, fun lba k hle hin hne => ?_⟩
  · rw [h'.fat_eq a ha (hused a ha hne hX) hX, h.fat_eq a ha hne hX]
  · by_cases hfirst : d₁ lba k = d lba k
    · obtain ⟨p, hp, hat⟩ := h'.changed lba k hle
        (fun c hc hlba => ⟨hused c hc (hin c hc hlba).1 (hin c hc hlba).2, (hin c hc hlba).2⟩)
        (hfirst.symm ▸ hne)
      exact ⟨p, List.mem_append_right _ hp, hat⟩
    · obtain ⟨p, hp, hat⟩ := h.changed lba k hle hin hfirst
      exact ⟨p, List.mem_append_left _ hp, hat⟩

theorem Spares.owns (h : Spares g d d' X ps) {start : Nat} (hds : Owns g d start ds)
    (hX : ∀ c ∈ ds, c ∉ X) : Owns g d' start ds :=
  hds.congr fun c hc => h.fat_eq c (hds.isCluster c hc) (hds.fat_ne_zero c hc) (hX c hc)

/-- The sectors of a directory are those of the root or of clusters in use. -/
theorem Owns.dirLbas_used (hD : Owns g d D cs) (hX : ∀ c ∈ cs, c ∉ X) {lba : Nat}
    (hlba : lba ∈ dirLbas g D cs) : g.rootDirSector ≤ lba ∧
      ∀ c, g.IsCluster c → g.InCluster c lba → fat g d c ≠ 0 ∧ c ∉ X := by
  rcases hD.mem_dirLbas.1 hlba with ⟨-, hle, hlt⟩ | ⟨a, ha, hin⟩
  · refine ⟨hle, fun c _ hc => ?_⟩
    -- no cluster reaches into the root directory
    have hdata := g.dataStartSector_eq
    have hlow := hc.1
    unfold Geometry.clusterLba at hlow
    omega
  · have hcluster := hD.isCluster a ha
    refine ⟨rootDirSector_le_of_inCluster hcluster.1 hin, fun c hc hc' => ?_⟩
    obtain rfl : a = c := by
      by_contra hne
      exact not_inCluster hcluster.1 hc.1 hne hin hc'
    exact ⟨hD.fat_ne_zero a ha, hX a ha⟩

/-- Slots that do not overlap are the same. -/
theorem AtPlace.unique {q : Nat × Nat} {lba k : Nat} (h : AtPlace p lba k) (h' : AtPlace q lba k) :
    p = q := by
  obtain ⟨hsec, hlow, hhigh⟩ := h
  obtain ⟨hsec', hlow', hhigh'⟩ := h'
  exact Prod.ext (hsec.symm.trans hsec') (by omega)

/-- A slot is the same when only bytes of other slots change. -/
theorem recordOf_congr (h : ∀ k, d' p.1 k ≠ d p.1 k → ∃ q ∈ ps, AtPlace q p.1 k) (hp : p ∉ ps) :
    recordOf d' p = recordOf d p := by
  funext k
  unfold recordOf recordAt
  by_cases hk : k < 32
  · rw [if_pos hk, if_pos hk]
    by_contra hne
    obtain ⟨q, hq, hat⟩ := h (32 * p.2 + k) hne
    have hself : AtPlace p p.1 (32 * p.2 + k) := ⟨rfl, by omega, by omega⟩
    exact hp (hself.unique hat ▸ hq)
  · rw [if_neg hk, if_neg hk]

/-- The records of a directory are kept with its clusters. -/
theorem Spares.record (h : Spares g d d' X ps) (hD : Owns g d D cs) (hX : ∀ c ∈ cs, c ∉ X)
    (hp : p ∈ dirPlaces g D cs) (hps : p ∉ ps) : recordOf d' p = recordOf d p := by
  obtain ⟨hle, hin⟩ := hD.dirLbas_used hX (mem_dirPlaces.1 hp).1
  exact recordOf_congr (fun k hne => h.changed p.1 k hle hin hne) hps

/-- The chain of a file has no cluster of a directory. -/
theorem WellFormed.dir_not_mem (h : WellFormed g d) (hp : InTree g d p)
    (hfile : (recordOf d p).isDirectory = false)
    (hX : Owns g d (recordOf d p).startingCluster X) (hD : Tree g d D cs) : ∀ c ∈ cs, c ∉ X := by
  intro c hc hmem
  cases hD with
  | root => exact absurd hc List.not_mem_nil
  | @sub D' cs' _ q hD' hq hdir hds _ =>
      obtain rfl := h.disjoint p q X cs c hp ⟨D', cs', hD', hq⟩ hX hds hmem hc
      exact absurd (hfile.symm.trans hdir) (by decide)

/-- The chains of the directories are kept and no directory is added. -/
theorem WellFormed.tree_iff (h : WellFormed g d)
    (howns : ∀ D cs, Tree g d D cs → Owns g d' D cs)
    (hrecord : ∀ D cs, Tree g d D cs → ∀ p ∈ dirPlaces g D cs, p ∉ ps →
      recordOf d' p = recordOf d p)
    (hfree : ∀ p ∈ ps, (recordOf d p).IsFree)
    (hnew : ∀ p ∈ ps, (recordOf d' p).IsEntry → (recordOf d' p).isDirectory = false) :
    Tree g d' D cs ↔ Tree g d D cs := by
  constructor
  · intro hD
    induction hD with
    | root => exact .root
    | @sub D cs ds p _ hp hdir hds _ ih =>
        have hps : p ∉ ps := by
          intro hmem
          rw [hnew p hmem hp.isEntry] at hdir
          exact absurd hdir (by decide)
        have heq := hrecord D cs ih p hp.mem hps
        have hat : EntryAt g d D cs p := ⟨hp.mem, heq ▸ hp.isEntry, heq ▸ hp.not_dot⟩
        rw [heq] at hdir hds ⊢
        obtain ⟨ds₀, hds₀, hlen⟩ := h.chain p ⟨D, cs, ih, hat⟩
        rw [if_pos hdir] at hlen
        obtain rfl := (howns _ _ (.sub ih hat hdir hds₀ hlen)).unique hds
        exact .sub ih hat hdir hds₀ hlen
  · intro hD
    induction hD with
    | root => exact .root
    | @sub D cs ds p hD hp hdir hds hne ih =>
        have heq := hrecord D cs hD p hp.mem fun hmem => hp.isEntry.not_free (hfree p hmem)
        have hkept := howns _ _ (.sub hD hp hdir hds hne)
        rw [← heq] at hdir hkept ⊢
        exact .sub ih ⟨hp.mem, heq ▸ hp.isEntry, heq ▸ hp.not_dot⟩ hdir hkept hne

/-- **What is spared is kept.**  `X` is empty or the chain of the files at `qs`; the slots `ps` of
a directory take up entries that are no directories. -/
theorem Spares.preserves (hs : Spares g d d' X ps) (h : WellFormed g d)
    (hX : ∀ c ∈ X, ∃ q ∈ qs, InTree g d q ∧ (recordOf d q).isDirectory = false ∧
      Owns g d (recordOf d q).startingCluster X)
    (hD : Tree g d D cs) (hps : ∀ p ∈ ps, p ∈ dirPlaces g D cs ∧ (recordOf d p).IsFree)
    (hnew : ∀ p ∈ ps, (recordOf d' p).IsEntry → (recordOf d' p).isDirectory = false) :
    Preserves g d d' ps qs := by
  have hspare : ∀ D cs, Tree g d D cs → ∀ c ∈ cs, c ∉ X := by
    intro D cs hD c hc hmem
    obtain ⟨q, -, hq, hfile, howns⟩ := hX c hmem
    exact h.dir_not_mem hq hfile howns hD c hc hmem
  have hrecord : ∀ D cs, Tree g d D cs → ∀ p ∈ dirPlaces g D cs, p ∉ ps →
      recordOf d' p = recordOf d p :=
    fun D cs hD p hp => hs.record hD.owns (hspare D cs hD) hp
  refine ⟨fun D cs => ?_, hrecord, fun c hc hne hout => ?_, fun p hp hfile hqs => ?_⟩
  · exact h.tree_iff (fun D cs hD => hs.owns hD.owns (hspare D cs hD)) hrecord
      (fun p hp => (hps p hp).2) hnew
  · refine hs.fat_eq c hc hne fun hmem => ?_
    obtain ⟨q, hq, -, -, howns⟩ := hX c hmem
    exact hout q hq X howns hmem
  · obtain ⟨ds, hds, hlen⟩ := h.chain p hp
    rw [if_neg (by simp [hfile])] at hlen
    have hds' : ∀ c ∈ ds, c ∉ X := by
      intro c hc hmem
      obtain ⟨q, hq, hin, -, howns⟩ := hX c hmem
      obtain rfl := h.disjoint p q ds X c hp hin hds howns hc hmem
      exact hqs hq
    refine fileBytes_congr hds hlen
      (fun c hc => hs.fat_eq c (hds.isCluster c hc) (hds.fat_ne_zero c hc) (hds' c hc))
      fun c hc lba hlba => ?_
    have hcluster := hds.isCluster c hc
    have hsame : ∀ a, g.IsCluster a → g.InCluster a lba → a = c := by
      intro a ha hin
      by_contra hne
      exact not_inCluster ha.1 hcluster.1 hne hin hlba
    funext k
    by_contra hne
    obtain ⟨q, hq, hat⟩ := hs.changed lba k (rootDirSector_le_of_inCluster hcluster.1 hlba)
      (fun a ha hin => hsame a ha hin ▸ ⟨hds.fat_ne_zero c hc, hds' c hc⟩) hne
    -- the slot lies in a directory, and no directory has this cluster
    obtain ⟨hmem, -⟩ := mem_dirPlaces.1 (hps q hq).1
    rw [← hat.1] at hmem
    rcases hD.owns.mem_dirLbas.1 hmem with ⟨-, -, hlt⟩ | ⟨a, ha, hin⟩
    · have hdata := g.dataStartSector_eq
      have hlow := hlba.1
      unfold Geometry.clusterLba at hlow
      omega
    · obtain rfl := hsame a (hD.owns.isCluster a ha) hin
      exact h.dir_not_mem hp hfile hds hD a ha hc

/-- A change of the clusters that are not in use keeps everything. -/
theorem Spares.preserves_all (hs : Spares g d d' [] []) (h : WellFormed g d) :
    Preserves g d d' [] [] :=
  hs.preserves h (by simp) .root (by simp) (by simp)

theorem Rewritten.spares {ncs : List Nat} {first : Nat} (h : Rewritten g d d' cs ncs first) :
    Spares g d d' cs [] := by
  refine ⟨fun a ha hne hout => h.fat_eq a ha hout fun hmem => ?_, fun lba k hle hin hne => ?_⟩
  · exact hne ((h.new a hmem).resolve_left hout)
  · refine absurd (congrFun (h.sector_eq lba hle fun c hc hlba => ?_) k) hne
    obtain ⟨hused, hout⟩ := hin c (h.owns.isCluster c hc) hlba
    exact hused ((h.new c hc).resolve_left hout)

/-- The cluster of a new directory was free. -/
theorem LeastFree.prepared_spares (hg : g.Valid) {c : Nat} (hc : LeastFree g d c) (P : Nat) :
    Spares g d (prepared g d c P) [] [] := by
  have hcf := IsCluster.lt_fat hg hc.isCluster
  refine ⟨fun a ha hne _ => ?_, fun lba k hle hin hne => ?_⟩
  · rw [fat_prepared hg hc.isCluster ha, if_neg]
    rintro rfl
    exact hne hc.free
  · have hout : ¬ DirSector g c lba := by
      intro hsec
      exact (hin c hc.isCluster ((dirSector_iff_inCluster hc.isCluster.1).1 hsec)).1 hc.free
    rw [prepared_of_ne hc.isCluster.1 hout, setFat_of_le hcf hle] at hne
    exact absurd rfl hne

end Changes

/-! ## The entry of a new file -/

section Created

variable {a : Nat} {as ws bs ls : List Record} {e : Record} {b : Nat → UInt8}

/-- The records of the new file `name` stand in the slots `ps`, which were free. -/
structure Created (g : Geometry) (d d' : Disk) (D : Nat) (cs : List Nat) (name : Name)
    (ps : List (Nat × Nat)) : Prop where
  places : ps <:+: dirPlaces g D cs
  free : ∀ p ∈ ps, (recordOf d p).IsFree
  records : ∃ a, FirstFree g d D name a ∧
    ps.map (recordOf d') = newRecords name (generateShortName name a) attrArchive 0 0

/-- No character of a path is zero. -/
theorem LeadsTo.zero_not_mem {path : List UInt8} (h : LeadsTo g d path D name) :
    (0 : UInt8) ∉ name := by
  have hrest : ∀ tail : List UInt8, (0 : UInt8) ∉ tail → (0 : UInt8) ∉ restOf tail := by
    intro tail htail hmem
    exact htail (List.mem_of_mem_drop ((List.dropWhile_suffix _).subset hmem))
  have hcomponent : ∀ tail : List UInt8, (0 : UInt8) ∉ tail → (0 : UInt8) ∉ component tail := by
    intro tail htail hmem
    exact htail ((List.takeWhile_prefix _).subset (List.mem_of_mem_take hmem))
  suffices hasks : ∀ {D₀ D : Nat} {tail : List UInt8} {name : Name} {last : Bool},
      Asks g d D₀ tail D name last → (0 : UInt8) ∉ tail → (0 : UInt8) ∉ name by
    refine hasks h fun hmem => zero_not_mem_cString path ?_
    unfold pathTail at hmem
    split at hmem
    · exact List.mem_of_mem_tail hmem
    · exact hmem
  intro D₀ D tail name last hasks
  induction hasks with
  | inner => exact hcomponent _
  | last => exact hcomponent _
  | dot _ _ _ ih => exact fun htail => ih (hrest _ htail)
  | down _ _ _ _ _ _ ih => exact fun htail => ih (hrest _ htail)

theorem fat_of_low (hg : g.Valid) (h : ∀ lba, lba < g.rootDirSector → d' lba = d lba) {c : Nat}
    (hc : g.IsCluster c) : fat g d' c = fat g d c := by
  have hlt := IsCluster.lt_fat hg hc
  have hmul : 1 * g.sectorsPerFat ≤ g.fatCount * g.sectorsPerFat :=
    Nat.mul_le_mul_right _ hg.fatCount_pos
  have hroot := g.rootDirSector_eq
  unfold fat
  rw [h _ (by omega)]

/-- The records that are written stand in the slots, and no others change. -/
theorem Window.places {j n sec slot : Nat} (hD : DirClusters g d D cs) (hn : 0 < n)
    (hwindow : Window (dirRecords g d D cs) j n) (hz : ZeroTail (dirRecords g d D cs))
    (hstart : (dirPlaces g D cs)[j]? = some (sec, slot))
    (hinside : streamPlaces sec slot n <:+: dirPlaces g D cs) {ns : List Record}
    (hns : ∀ r ∈ ns, r.Clipped) (hlen : ns.length = n) :
    ∃ as ws bs, dirRecords g d D cs = as ++ (ws ++ bs) ∧
      dirRecords g (putRecords d sec slot ns) D cs = as ++ (ns ++ bs) ∧ ws.length = n ∧
      (∀ r ∈ ws, r.IsFree) ∧ ∀ r ∈ as, r 0 ≠ 0x00 := by
  have hcount : (streamPlaces sec slot n).length = n := by simp [streamPlaces]
  obtain ⟨as, ws, bs, hrs, has, hws, hfree, hused⟩ := hwindow.split hn hz
  obtain ⟨xs, ys, hplaces⟩ := hinside
  have hnodup : (xs ++ streamPlaces sec slot n ++ ys).Nodup := hplaces ▸ nodup_dirPlaces hD
  have hxs : xs.length = j := by
    have hslot := slot_lt hstart
    have hlt : xs.length < (xs ++ streamPlaces sec slot n ++ ys).length := by
      rw [List.length_append, List.length_append]
      omega
    refine (List.getElem?_inj hlt hnodup).1 ?_
    rw [hplaces, hstart, ← hplaces, List.append_assoc, List.getElem?_append_right (le_refl _),
      Nat.sub_self, List.getElem?_append_left (by omega), streamPlaces, List.getElem?_map,
      List.getElem?_range' hn]
    simp only [Option.map_some, Nat.mul_zero, Nat.add_zero, Nat.div_eq_of_lt hslot,
      Nat.mod_eq_of_lt hslot]
  have hmap : xs.map (recordOf d) ++ ((streamPlaces sec slot n).map (recordOf d) ++
      ys.map (recordOf d)) = as ++ (ws ++ bs) := by
    rw [← List.map_append, ← List.map_append, ← List.append_assoc, hplaces]
    exact hrs
  obtain ⟨hxs', hrest⟩ := List.append_inj hmap (by rw [List.length_map, hxs, has])
  obtain ⟨-, hys'⟩ := List.append_inj hrest (by rw [List.length_map, hcount, hws])
  have hother : ∀ p, p ∉ streamPlaces sec slot n →
      recordOf (putRecords d sec slot ns) p = recordOf d p := by
    intro p hp
    refine recordOf_congr (fun k hne => ?_) hp
    have hat := putRecords_changes hne
    rwa [hlen] at hat
  have hstream : (streamPlaces sec slot n).map (recordOf (putRecords d sec slot ns)) = ns := by
    rw [← hlen]
    exact recordOf_putRecords d sec slot hns
  obtain ⟨hleft, -, hdisjoint⟩ := List.nodup_append.1 hnodup
  refine ⟨as, ws, bs, hrs, ?_, hws, hfree, hused⟩
  rw [dirRecords, ← hplaces, List.map_append, List.map_append, hstream, ← hxs', ← hys',
    List.append_assoc]
  congr 1
  · refine List.map_congr_left fun p hp => hother p fun hmem => ?_
    exact (List.nodup_append.1 hleft).2.2 p hp p hmem rfl
  · congr 1
    refine List.map_congr_left fun p hp => hother p fun hmem => ?_
    exact hdisjoint p (List.mem_append_right _ hmem) p hp rfl

/-- A tombstone behind fragments: the scan forgets them. -/
theorem sightings_erased (has : ∀ r ∈ as, r 0 ≠ 0x00) (hls : ∀ r ∈ ls, r.IsLfn) (he : e 0 = 0xE5)
    (hhigh : clearBuffer (ls.foldl putFragment (as.foldl scanBuffer b)) =
      clearBuffer (as.foldl scanBuffer b)) :
    sightings scanBuffer 0 b (as ++ (ls ++ [e] ++ bs)) = sightings scanBuffer 0 b as ++
      sightings scanBuffer (as.length + (ls.length + 1)) (clearBuffer (as.foldl scanBuffer b))
        bs := by
  have h₀ : ∀ r ∈ ls, r 0 ≠ 0x00 := fun r hr hzero => (hls r hr).1 (Or.inl hzero)
  have he₀ : e 0 ≠ 0x00 := by
    rw [he]
    decide
  have hentry : ¬ e.IsEntry := fun h => h.not_free (Or.inr he)
  rw [sightings_append has, List.append_assoc, sightings_append h₀, sightings_lfns hls,
    List.nil_append, foldl_scanBuffer_lfns hls, List.singleton_append, sightings_skip he₀ hentry,
    scanBuffer_tombstone he, hhigh, Nat.zero_add, Nat.add_assoc]

/-- **Scans over new records.**  They add the sighting of the new entry and no others. -/
theorem mem_sightings_new {sfn : List UInt8} (has : ∀ r ∈ as, r 0 ≠ 0x00)
    (hws : ∀ r ∈ ws, r.IsFree) (hcount : ws.length = lfnCount name + 1)
    (hz : ZeroTail (as ++ (ws ++ bs))) (hflag : ∀ r ∈ as, FlagFree r) (hlen : name.length ≤ 255)
    (hsfn : sfn.length = 11) (hhead : sfn.getD 0 0 ≠ 0) {v : Visit} :
    v ∈ sightings scanBuffer 0 emptyBuffer
        (as ++ (newRecords name sfn attrArchive 0 0 ++ bs)) ↔
      v ∈ sightings scanBuffer 0 emptyBuffer (as ++ (ws ++ bs)) ∨
        (sfnRecord sfn attrArchive 0 0).IsEntry ∧ v = ⟨as.length + lfnCount name,
          bufferAfter (as.foldl scanBuffer emptyBuffer) (lfnRecords name (lfnChecksum sfn)),
          sfnRecord sfn attrArchive 0 0⟩ := by
  have hls : ∀ r ∈ lfnRecords name (lfnChecksum sfn), r.IsLfn := isLfn_lfnRecords hlen
  have hempty : HighZero (as.foldl scanBuffer emptyBuffer) := HighZero.foldl (fun _ _ => rfl) hflag
  have hfull : HighZero ((lfnRecords name (lfnChecksum sfn)).foldl putFragment
      (as.foldl scanBuffer emptyBuffer)) := by
    rw [← foldl_scanBuffer_lfns hls]
    refine hempty.foldl fun r hr => ?_
    obtain ⟨idx, last, -, hle, rfl⟩ := mem_lfnRecords hr
    exact flagFree_lfnRecord hlen (hle.trans (lfnCount_le hlen))
  have hhigh : clearBuffer ((lfnRecords name (lfnChecksum sfn)).foldl putFragment
      (as.foldl scanBuffer emptyBuffer)) = clearBuffer (as.foldl scanBuffer emptyBuffer) := by
    rw [clearBuffer_eq hfull, clearBuffer_eq hempty]
  have hws' : ws ≠ [] := by
    rintro rfl
    simp at hcount
  have hfree := sightings_free (b := emptyBuffer) has hws' hws hz
  rw [hcount] at hfree
  rw [newRecords_eq, bufferAfter_lfns hls, hfree]
  by_cases he : (sfnRecord sfn attrArchive 0 0).IsEntry
  · rw [sightings_records has hls he hhigh, length_lfnRecords, List.mem_append, List.mem_cons,
      List.mem_append, and_iff_right he, or_right_comm, or_assoc, or_comm (a := v = _)]
  · have h₅ : sfnRecord sfn attrArchive 0 0 0 = 0xE5 := by
      rw [sfnRecord_of_lt hsfn (by omega)]
      by_contra h₅
      exact he (isEntry_sfnRecord hsfn hhead h₅ (by decide) (by decide))
    rw [sightings_erased has hls h₅ hhigh, length_lfnRecords, or_iff_left fun h => he h.1]

theorem flagFree_newRecords {sfn : List UInt8} (hlen : name.length ≤ 255) :
    ∀ r ∈ newRecords name sfn attrArchive 0 0, FlagFree r := by
  intro r hr
  rw [newRecords_eq] at hr
  rcases List.mem_append.1 hr with hr | hr
  · obtain ⟨idx, last, -, hle, rfl⟩ := mem_lfnRecords hr
    exact flagFree_lfnRecord hlen (hle.trans (lfnCount_le hlen))
  · rw [List.mem_singleton.1 hr]
    intro hlfn
    rw [attributes_sfnRecord] at hlfn
    exact absurd hlfn (by decide)

/-- None of the new records is a directory. -/
theorem newRecords_file {sfn : List UInt8} (hlen : name.length ≤ 255) {r : Record}
    (hr : r ∈ newRecords name sfn attrArchive 0 0) (he : r.IsEntry) : r.isDirectory = false := by
  rw [newRecords_eq] at hr
  rcases List.mem_append.1 hr with hr | hr
  · exact absurd (isLfn_lfnRecords hlen r hr).2 he.not_lfn
  · rw [List.mem_singleton.1 hr, Record.isDirectory, attributes_sfnRecord]
    rfl

/-- A lookup of the new name ends at the new entry or finds nothing, and the latter only when the
name has bytes above 127 or fragments without an entry lie in front. -/
theorem looks_new (hg : g.Valid) (h : WellFormed g d) (hD : Tree g d D cs) (howns : Owns g d₁ D cs)
    (hrs : dirRecords g d D cs = as ++ (ws ++ bs)) (hrs' : dirRecords g d₁ D cs =
      as ++ (newRecords name (generateShortName name a) attrArchive 0 0 ++ bs))
    (has : ∀ r ∈ as, r 0 ≠ 0x00) (hfree : ∀ r ∈ ws, r.IsFree)
    (hws : ws.length = lfnCount name + 1) (hzero : (0 : UInt8) ∉ name) (hne : name ≠ [])
    (hlen : name.length ≤ 255) (hnew : Looks g d D name none) {o : Option Found}
    (ho : Looks g d₁ D name o) :
    (o = none ∧ ¬ (Ascii name ∧ CleanDir false (dirRecords g d D cs))) ∨
    ∃ found, o = some found ∧ found.idx < 16 ∧
      found.entry = sfnRecord (generateShortName name a) attrArchive 0 0 := by
  have hsfn := length_generateShortName name a
  have hflag : ∀ r ∈ as ++ (ws ++ bs), FlagFree r := hrs ▸ h.flagFree D cs hD
  have hz : ZeroTail (as ++ (ws ++ bs)) := hrs ▸ h.zeroTail D cs hD
  have hflag' : ∀ r ∈ dirRecords g d₁ D cs, FlagFree r := by
    intro r hr
    rw [hrs'] at hr
    rcases List.mem_append.1 hr with hr | hr
    · exact hflag r (List.mem_append_left _ hr)
    · rcases List.mem_append.1 hr with hr | hr
      · exact flagFree_newRecords hlen r hr
      · exact hflag r (List.mem_append_right _ (List.mem_append_right _ hr))
  have hold : ∀ v ∈ sightings scanBuffer 0 emptyBuffer (as ++ (ws ++ bs)), ¬ v.Matches name := by
    rcases looks_sighting (hD.dirClusters hg) (h.flagFree D cs hD) hnew with
      ⟨-, hall⟩ | ⟨f, -, hf, -⟩
    · rwa [hrs] at hall
    · exact absurd hf (by simp)
  have hsight := fun v => @mem_sightings_new name as ws bs _ has hfree hws hz
    (fun r hr => hflag r (List.mem_append_left _ hr)) hlen hsfn
    (head_generateShortName_ne_zero hzero a) v
  rw [← hrs'] at hsight
  rcases looks_sighting (howns.dirClusters hg) hflag' ho with
    ⟨rfl, hall⟩ | ⟨found, v, rfl, hv, hmatch, hentry, hplace⟩
  · refine Or.inl ⟨rfl, fun ⟨hascii, hclean⟩ => ?_⟩
    have hhead := head_generateShortName hascii a
    have he : (sfnRecord (generateShortName name a) attrArchive 0 0).IsEntry :=
      isEntry_sfnRecord hsfn hhead.1 hhead.2.1 (by decide) (by decide)
    rw [hrs] at hclean
    have hterminated : Terminated (as.foldl scanBuffer emptyBuffer) name :=
      hclean.terminated has (List.ne_nil_of_length_pos (by omega)) hfree hlen
    exact hall _ ((hsight _).2 (Or.inr ⟨he, rfl⟩))
      ((matches_new hascii hne hlen hterminated hsfn).2 (Or.inl rfl))
  · rcases (hsight v).1 hv with hv | ⟨-, rfl⟩
    · exact absurd hmatch (hold v hv)
    · exact Or.inr ⟨found, rfl, (mem_dirPlaces.1 (List.mem_of_getElem? hplace)).2, hentry.symm⟩

/-- What the insertion of a new file has done to the volume `d`. -/
structure Entered (g : Geometry) (d d₁ : Disk) (D : Nat) (cs : List Nat) (name : Name)
    (ps : List (Nat × Nat)) : Prop where
  created : Created g d d₁ D cs name ps
  spares : Spares g d d₁ [] ps
  fat_eq : ∀ c, g.IsCluster c → fat g d₁ c = fat g d c
  looks : ∀ o, Looks g d₁ D name o →
    (o = none ∧ ¬ (Ascii name ∧ CleanDir false (dirRecords g d D cs))) ∨
    ∃ found a, o = some found ∧ found.idx < 16 ∧
      found.entry = sfnRecord (generateShortName name a) attrArchive 0 0

/-- **The entry of a new file** in a directory whose free slots are adjacent. -/
theorem WellFormed.inserted (hg : g.Valid) (h : WellFormed g d) (hD : Tree g d D cs)
    (hzero : (0 : UInt8) ∉ name) (hne : name ≠ []) (hlen : name.length ≤ 255)
    (hnew : Looks g d D name none) (hadj : RunAdjacent g d D cs (lfnCount name + 1)) {code : Int}
    {io : Io} (hrun : Yields ((insertEntry D name attrArchive 0 0).run g kmalloc (clean d))
      (code, io)) :
    (code = -enospc ∧ io = clean d) ∨
    (code = eok ∧ ∃ d₁ ps, io = clean d₁ ∧ Entered g d d₁ D cs name ps) := by
  have hchain := hD.dirClusters hg
  obtain ⟨a, r, hfirst, hiter, hp⟩ := yields_insertEntry.1 hrun
  cases slotSearch_places hchain (Nat.succ_pos _) hiter with
  | full hdone _ =>
      rw [hdone] at hp
      obtain ⟨rfl, rfl⟩ := Prod.mk.inj hp
      exact Or.inl ⟨rfl, rfl⟩
  | @found j hdone hwindow hstart =>
      right
      rw [hdone, if_pos rfl] at hp
      obtain ⟨rfl, rfl⟩ := Prod.mk.inj hp
      rw [streamed_eq g _ (slot_lt hstart)]
      have hblock : streamPlaces r.2.startSector r.2.startSlot (lfnCount name + 1) <:+:
          dirPlaces g D cs :=
        (streamPlaces_infix_iff (nodup_dirPlaces hchain) (Nat.succ_pos _) hstart).2
          (hadj j hwindow)
      have hcount : (newRecords name (generateShortName name a) attrArchive 0 0).length =
          lfnCount name + 1 := length_newRecords _ _ _ _ _
      have hclipped : ∀ r ∈ newRecords name (generateShortName name a) attrArchive 0 0, r.Clipped :=
        clipped_newRecords (length_generateShortName name a)
      obtain ⟨as, ws, bs, hrs, hrs', hws, hfree, has⟩ := hwindow.places hchain (Nat.succ_pos _)
        (h.zeroTail D cs hD) hstart hblock hclipped hcount
      have hwritten := recordOf_putRecords d r.2.startSector r.2.startSlot hclipped
      rw [hcount] at hwritten
      generalize hd₁ : putRecords d r.2.startSector r.2.startSlot
        (newRecords name (generateShortName name a) attrArchive 0 0) = d₁ at hrs' hwritten ⊢
      have hchanged : ∀ lba k, d₁ lba k ≠ d lba k →
          ∃ p ∈ streamPlaces r.2.startSector r.2.startSlot (lfnCount name + 1),
            AtPlace p lba k := by
        intro lba k hne
        rw [← hd₁] at hne
        have hat := putRecords_changes hne
        rwa [hcount] at hat
      have hin := hwindow.isFree hchain (Nat.succ_pos _) hstart hblock
      have hlow : ∀ lba, lba < g.rootDirSector → d₁ lba = d lba := by
        intro lba hlba
        funext k
        by_contra hne
        obtain ⟨p, hp, hat⟩ := hchanged lba k hne
        have hle := (hD.owns.dirLbas_used (X := []) (by simp) (mem_dirPlaces.1 (hin p hp).1).1).1
        rw [← hat.1] at hle
        omega
      have hfat : ∀ c, g.IsCluster c → fat g d₁ c = fat g d c := fun c hc => fat_of_low hg hlow hc
      have howns : Owns g d₁ D cs := hD.owns.congr fun c hc => hfat c (hD.owns.isCluster c hc)
      refine ⟨rfl, d₁, _, rfl, ⟨hblock, fun p hp => (hin p hp).2, a, hfirst, hwritten⟩,
        ⟨fun c hc _ _ => hfat c hc, fun lba k _ _ => hchanged lba k⟩, hfat, fun o ho => ?_⟩
      have hlooks := looks_new hg h hD howns hrs hrs' has hfree hws hzero hne hlen hnew ho
      exact hlooks.imp_right fun ⟨found, hfound⟩ => ⟨found, a, hfound⟩

/-- The directory still has its clusters, so nothing that spares them changes the new records. -/
theorem Entered.spares_records (he : Entered g d d₁ D cs name ps) (hD : Tree g d D cs)
    (hs : Spares g d₁ d₂ [] []) : ps.map (recordOf d₂) = ps.map (recordOf d₁) := by
  have howns : Owns g d₁ D cs := he.spares.owns hD.owns (by simp)
  refine List.map_congr_left fun p hp => ?_
  exact hs.record howns (by simp) (he.created.places.subset hp) (by simp)

/-- The other entries and the files are kept. -/
theorem Entered.preserves (he : Entered g d d₁ D cs name ps) (h : WellFormed g d)
    (hD : Tree g d D cs) (hlen : name.length ≤ 255) (hs : Spares g d d₂ [] ps)
    (hsame : ps.map (recordOf d₂) = ps.map (recordOf d₁)) : Preserves g d d₂ ps [] := by
  obtain ⟨a, -, hrecords⟩ := he.created.records
  refine hs.preserves h (by simp) hD
    (fun p hp => ⟨he.created.places.subset hp, he.created.free p hp⟩) fun p hp hentry => ?_
  have hmem : recordOf d₂ p ∈ newRecords name (generateShortName name a) attrArchive 0 0 := by
    rw [← hrecords, ← hsame]
    exact List.mem_map_of_mem hp
  exact newRecords_file hlen hmem hentry

end Created

end Fat16

end BenmoshOS
