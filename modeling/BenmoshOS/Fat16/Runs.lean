import BenmoshOS.Fat16.Allocation

/-!
# FAT16: the clusters of a volume over whole runs

* `Formatted`, `Run` — a new volume, and the runs of calls that succeed on it.
* `run_allocation` — every cluster that is taken has one owner, in every state of a run.
* `sizes_wrap` — clusters of more than 128 sectors hold files whose size does not fit its field.
-/

namespace BenmoshOS

namespace Fat16

open Exec (Yields Halts)
open Fs

variable {g : Geometry} {d d' : Disk} {kmalloc : Nat → Option (Nat → UInt8)}

/-- A lookup on a sound volume ends with the first entry that matches the name. -/
theorem Sound.looks (hg : g.Valid) (h : Sound g d) (hD : IsDir g d D) (n : Name) :
    Looks g d D n ((lookup g d D n).map (Visit.found (dirBase g D))) := by
  have hrun : Fat16.findInDir .target D n ⟨g, 2, fun _ => none⟩ (clean d) = _ :=
    Sound.findInDir hg (le_refl 2) h hD .target n
  exact ((yields_findInDir .target).1 ⟨2, hrun⟩).1

/-! ## Runs of calls that succeed -/

/-- Every cluster that is taken belongs to an entry. -/
def Accounted (g : Geometry) (d : Disk) : Prop :=
  ∀ c, g.IsCluster c → fat g d c ≠ 0 → Owned g d c

/-- The path a call is made with. -/
def Call.path : Call → List UInt8
  | .createFile path => path
  | .writeFile path _ _ => path
  | .deleteFile path => path
  | .makeDirectory path => path
  | .removeDirectory path => path

theorem Call.regular (op : Call) : op.run.Regular := by
  cases op with
  | createFile path => exact regular_onEntry regular_createFound
  | writeFile path data append => exact regular_onEntry (regular_writeFound data append)
  | deleteFile path => exact regular_onEntry fun _ _ r => (total_deleteFound r).regular
  | makeDirectory path => exact regular_onEntry regular_makeFound
  | removeDirectory path => exact regular_onEntry fun _ _ => regular_removeFound

/-- A call that returns does so with any fuel that is large enough. -/
theorem ret_of_yields {x : Fs α} (hx : x.Regular) {io : Io} {p : α × Io}
    (h : Yields (x.run g kmalloc io) p) :
    ∃ env : Env, env.geom = g ∧ 2 ≤ env.fuel ∧ x env io = .ret p := by
  obtain ⟨n, hn⟩ := h
  exact ⟨⟨g, max n 2, kmalloc⟩, rfl, le_max_right n 2,
    (hx.mono g kmalloc io).ret (le_max_left n 2) hn⟩

/-- The data area is too small for the sizes of its files to wrap. -/
def Geometry.Fits (g : Geometry) : Prop := g.totalClusters * g.clusterBytes < 2 ^ 32

theorem Geometry.bytes_le_of_clustersFor {n k : Nat} (h : g.clustersFor n ≤ k) :
    n ≤ k * g.clusterBytes := by
  have hpos := g.clusterBytes_pos
  unfold Geometry.clustersFor at h
  have := (Nat.div_le_iff_le_mul_add_pred hpos).1 h
  rw [Nat.mul_comm]
  omega

section Written

variable {D : Nat} {v : Visit} {data : List UInt8} {append : Bool}

/-- The bytes of a file fit the data area. -/
theorem Writes.bytes_lt (hfits : g.Fits) (hw : Writes g d data append D v eok (clean d')) :
    keptSize append v.entry.fileSize + data.length < 2 ^ 32 := by
  obtain ⟨cs, d₁, first, ncs, hcs, hre, ⟨-, -, hlen⟩ | ⟨hcode, -⟩⟩ := hw
  · have hle := length_le_totalClusters hre.owns.nodup hre.owns.isCluster
    rw [hlen] at hle
    exact (Geometry.bytes_le_of_clustersFor hle).trans_lt hfits
  · exact absurd hcode (by decide)

/-- A written entry leaves the volume sound and all its clusters accounted for. -/
theorem Writes.sound (hg : g.Valid) (h : Sound g d) (hall : Accounted g d)
    (hv : LiveEntry g d D v) (hfile : v.entry.isDirectory = false)
    (hbytes : keptSize append v.entry.fileSize + data.length < 2 ^ 32)
    (hw : Writes g d data append D v eok (clean d')) : Sound g d' ∧ Accounted g d' := by
  obtain ⟨cs, d₁, first, ncs, hcs, hre, ⟨-, hio, hlen⟩ | ⟨hcode, -⟩⟩ := hw
  · obtain rfl : d' = putRecord d₁ (dirBase g D) v.pos (v.entry.withChain first
        (newSize append v.entry.fileSize data)) := congrArg Io.disk hio
    have hsize : newSize append v.entry.fileSize data =
        keptSize append v.entry.fileSize + data.length := by
      unfold newSize keptSize wrap32 at *
      cases append with
      | true => exact Nat.mod_eq_of_lt hbytes
      | false => exact (Nat.zero_add _).symm
    rw [hsize]
    obtain ⟨hsound, howned, hfat⟩ := hre.sound hg h hv hfile hcs hbytes hlen
    refine ⟨hsound, fun c hc htaken => (howned c).2 ?_⟩
    rw [hfat c hc] at htaken
    by_cases hnew : c ∈ ncs
    · exact Or.inr hnew
    · have hold : c ∉ cs := fun hmem => htaken (hre.freed c hmem hnew)
      rw [hre.fat_eq c hc hold hnew] at htaken
      exact Or.inl ⟨hall c hc htaken, hold⟩
  · exact absurd hcode (by decide)

end Written

/-- The entry of an empty file leaves the volume sound and all its clusters accounted for. -/
theorem createFile_sound {path : List UInt8} (hg : g.Valid) (h : Sound g d) (hall : Accounted g d)
    (hpath : AsciiPath path) (hok : Succeeds (createFile path) g kmalloc d d') :
    Sound g d' ∧ Accounted g d' ∧ ∀ c, g.IsCluster c → fat g d' c = fat g d c := by
  obtain ⟨env, rfl, hfuel, hrun⟩ := ret_of_yields (Call.regular (.createFile path)) hok
  rcases createFile_cases hg hfuel h hrun with ⟨herr, -⟩ | ⟨-, D, name, d₁, hres, -, hins, hio⟩
  · exact absurd herr (by decide)
  · obtain rfl : d' = d₁ := congrArg Io.disk hio
    obtain ⟨hsound, howned, hfat⟩ := hins.file_sound hg h hres.isDir
      (hres.component.ascii hpath) hres.component.length_le
    refine ⟨hsound, fun c hc htaken => (howned c).2 (hall c hc ?_), hfat⟩
    rwa [hfat c hc] at htaken

/-- **One call.**  A call that succeeds leaves the volume sound and all its clusters accounted
for. -/
theorem Call.sound (hg : g.Valid) (hfits : g.Fits) (h : Sound g d) (hall : Accounted g d)
    {op : Call} (hpath : AsciiPath op.path) (hok : Succeeds op.run g kmalloc d d') :
    Sound g d' ∧ Accounted g d' := by
  obtain ⟨env, rfl, hfuel, hrun⟩ := ret_of_yields op.regular hok
  have hneg : ¬ eok < 0 := by decide
  cases op with
  | createFile path =>
      obtain ⟨hsound, haccounted, -⟩ := createFile_sound hg h hall hpath hok
      exact ⟨hsound, haccounted⟩
  | writeFile path data append =>
      rcases writeFile_cases hg hfuel h hpath hrun with ⟨herr, -⟩ | ⟨D, name, hres, hfound | hnew⟩
      · exact absurd herr hneg
      · obtain ⟨v, -, hfile, hlive, hwrites⟩ := hfound
        exact hwrites.sound hg h hall hlive hfile (hwrites.bytes_lt hfits)
      · obtain ⟨-, d₁, hins, ⟨herr, -⟩ | ⟨v, -, hfile, hlive, hwrites⟩⟩ := hnew
        · exact absurd herr hneg
        · obtain ⟨hsound, howned, hfat⟩ := hins.file_sound hg h hres.isDir
            (hres.component.ascii hpath) hres.component.length_le
          refine hwrites.sound hg hsound (fun c hc htaken => ?_) hlive hfile
            (hwrites.bytes_lt hfits)
          rw [hfat c hc] at htaken
          exact (howned c).2 (hall c hc htaken)
  | deleteFile path =>
      rcases deleteFile_cases hg hfuel h hrun with ⟨herr, -⟩ | ⟨-, D, name, v, cs, -, -, hfile, hlive,
        hcs, hio⟩
      · exact absurd herr hneg
      · obtain rfl : d' = deleted env.geom d D v cs := congrArg Io.disk hio
        obtain ⟨hsound, howned⟩ := deleted_sound hg h hlive hfile hcs
        refine ⟨hsound, fun c hc htaken => (howned c).2 ?_⟩
        rw [fat_deleted hg hlive hcs.isCluster hc] at htaken
        by_cases hmem : c ∈ cs
        · exact absurd (if_pos hmem) htaken
        · rw [if_neg hmem] at htaken
          exact ⟨hall c hc htaken, hmem⟩
  | makeDirectory path =>
      rcases makeDirectory_cases hg hfuel h hrun with ⟨herr, -⟩ | ⟨D, name, c, hres, -, hfree,
        ⟨herr, -⟩ | ⟨-, d₁, hio, hins⟩⟩
      · exact absurd herr hneg
      · exact absurd herr (by decide)
      · obtain rfl : d' = d₁ := congrArg Io.disk hio
        obtain ⟨hsound, howned, hfat⟩ := hins.directory_sound hg h hres.isDir hfree
          (hres.component.ascii hpath) hres.component.length_le
        refine ⟨hsound, fun a ha htaken => (howned a).2 ?_⟩
        rw [hfat a ha] at htaken
        by_cases hac : a = c
        · exact Or.inr hac
        · rw [if_neg hac] at htaken
          exact Or.inl (hall a ha htaken)
  | removeDirectory path =>
      rcases removeDirectory_cases hg hfuel h hrun with ⟨herr, -⟩ | ⟨-, D, name, v, -, -, hdir, hlive,
        hempty, hio⟩
      · exact absurd herr hneg
      · obtain rfl : d' = deleted env.geom d D v [v.entry.startingCluster] := congrArg Io.disk hio
        obtain ⟨hsound, howned⟩ := removed_sound hg h hlive hdir hempty
        refine ⟨hsound, fun c hc htaken => (howned c).2 ?_⟩
        rw [fat_deleted hg hlive (h.dirChain hlive hdir).isCluster hc] at htaken
        by_cases hmem : c ∈ [v.entry.startingCluster]
        · exact absurd (if_pos hmem) htaken
        · rw [if_neg hmem] at htaken
          exact ⟨hall c hc htaken, fun heq => hmem (heq ▸ List.mem_singleton_self _)⟩

/-- A volume that has just been formatted: no cluster is taken, and the root directory is
empty. -/
structure Formatted (g : Geometry) (d : Disk) : Prop where
  valid : g.Valid
  free : ∀ c, g.IsCluster c → fat g d c = 0
  root : ∀ r ∈ records g d 0, r = fun _ => 0

/-- Clusters of at most 128 sectors are small enough. -/
theorem Geometry.Valid.fits (hg : g.Valid) (hsmall : g.sectorsPerCluster ≤ 128) : g.Fits := by
  have hclusters := hg.clusters_le
  have hbytes : g.clusterBytes ≤ 65536 := by
    unfold Geometry.clusterBytes
    omega
  calc g.totalClusters * g.clusterBytes ≤ 65518 * 65536 := Nat.mul_le_mul (by omega) hbytes
    _ < 2 ^ 32 := by decide

theorem Formatted.entries_root (h : Formatted g d) : entries g d 0 = [] :=
  visits_zero fun r hr => by rw [h.root r hr]

theorem Formatted.isDir_iff (h : Formatted g d) {D : Nat} : IsDir g d D ↔ D = 0 := by
  constructor
  · intro hD
    induction hD with
    | root => rfl
    | sub _ hv _ _ ih =>
        rw [ih, h.entries_root] at hv
        cases hv
  · rintro rfl
    exact .root

theorem Formatted.not_live (h : Formatted g d) {D : Nat} {v : Visit} : ¬ LiveEntry g d D v := by
  intro hv
  have hmem := hv.mem
  rw [h.isDir_iff.1 hv.isDir, h.entries_root] at hmem
  cases hmem

theorem Formatted.sound (h : Formatted g d) : Sound g d where
  flagFree D hD r hr := by
    rw [h.isDir_iff.1 hD] at hr
    rw [h.root r hr]
    exact fun hlfn => absurd hlfn (by decide)
  zeroTail D hD := by
    rw [h.isDir_iff.1 hD]
    exact List.pairwise_of_forall_mem_list fun r _ r' hr' _ => by rw [h.root r' hr']
  root_dots v hv := by
    rw [h.entries_root] at hv
    cases hv
  dots P v w hv := absurd hv h.not_live
  chain D v hv := absurd hv h.not_live
  disjoint D v cs D' v' cs' c hv := absurd hv h.not_live

/-- The states of a run of calls on paths of 7-bit characters that all succeed. -/
inductive Run (g : Geometry) (kmalloc : Nat → Option (Nat → UInt8)) (d₀ : Disk) : Disk → Prop
  | start : Run g kmalloc d₀ d₀
  | call {d d' : Disk} {op : Call} (h : Run g kmalloc d₀ d) (hpath : AsciiPath op.path)
      (hok : Succeeds op.run g kmalloc d d') : Run g kmalloc d₀ d'

/-- What holds of the clusters of a volume: every entry but `.` and `..` owns a chain without
repetitions of data clusters up to an end mark, one cluster for a directory and as many as its
size asks for for a file; no two chains meet; and every cluster that is taken is in one of
them. -/
structure Allocation (g : Geometry) (d : Disk) : Prop where
  chain : ∀ D v, LiveEntry g d D v → ∃ cs, Owns g d v.entry.startingCluster cs ∧ cs.Nodup ∧
    cs.length = chainLength g v.entry
  disjoint : ∀ D v cs D' v' cs' c, LiveEntry g d D v → LiveEntry g d D' v' →
    Owns g d v.entry.startingCluster cs → Owns g d v'.entry.startingCluster cs' →
    c ∈ cs → c ∈ cs' → D = D' ∧ v = v'
  owner : ∀ c, g.IsCluster c → fat g d c ≠ 0 →
    ∃ D v cs, LiveEntry g d D v ∧ Owns g d v.entry.startingCluster cs ∧ c ∈ cs

theorem Run.sound {d₀ : Disk} (hf : Formatted g d₀) (hsmall : g.sectorsPerCluster ≤ 128)
    (h : Run g kmalloc d₀ d) : Sound g d ∧ Accounted g d := by
  induction h with
  | start => exact ⟨hf.sound, fun c hc htaken => absurd (hf.free c hc) htaken⟩
  | call _ hpath hok ih => exact Call.sound hf.valid (hf.valid.fits hsmall) ih.1 ih.2 hpath hok

/-- **Allocation.**  In every state of a run on a new volume with at most 128 sectors a cluster,
the clusters that are taken are the disjoint chains of its entries. -/
theorem run_allocation {d₀ : Disk} (hf : Formatted g d₀) (hsmall : g.sectorsPerCluster ≤ 128)
    (h : Run g kmalloc d₀ d) : Allocation g d := by
  obtain ⟨hsound, hall⟩ := h.sound hf hsmall
  refine ⟨fun D v hv => ?_, fun D v cs D' v' cs' c hv hv' hcs hcs' hc hc' => ?_, hall⟩
  · obtain ⟨cs, hcs, hlen⟩ := hsound.chain D v hv
    exact ⟨cs, hcs, hcs.nodup, hlen⟩
  · obtain ⟨rfl, hpos⟩ := hsound.disjoint D v cs D' v' cs' c hv hv' hcs hcs' hc hc'
    exact ⟨rfl, entries_inj hv.mem hv'.mem hpos⟩

theorem formatted_blankDisk : Formatted wideGeometry blankDisk := by
  refine ⟨⟨by decide, by decide, by decide⟩, fun _ _ => rfl, fun r hr => ?_⟩
  obtain ⟨p, -, rfl⟩ := List.mem_map.1 hr
  funext k
  exact ite_self 0

/-- On a new volume the file `/a` is written, and then deleted. -/
theorem run_allocation_write :
    Allocation wideGeometry (after (writeFile [0x2F, 0x61] [0x41] false) blankDisk) ∧
      Allocation wideGeometry (after (deleteFile [0x2F, 0x61])
        (after (writeFile [0x2F, 0x61] [0x41] false) blankDisk)) := by
  have hwrite : Succeeds (Call.writeFile [0x2F, 0x61] [0x41] false).run wideGeometry
      (fun _ => none) blankDisk (after (writeFile [0x2F, 0x61] [0x41] false) blankDisk) :=
    succeeds_after (Call.regular _) (by decide +kernel)
  have hdelete : Succeeds (Call.deleteFile [0x2F, 0x61]).run wideGeometry (fun _ => none)
      (after (writeFile [0x2F, 0x61] [0x41] false) blankDisk)
      (after (deleteFile [0x2F, 0x61]) (after (writeFile [0x2F, 0x61] [0x41] false) blankDisk)) :=
    succeeds_after (Call.regular _) (by decide +kernel)
  have hstart : Run wideGeometry (fun _ => none) blankDisk blankDisk := .start
  have hrun := hstart.call (below_of_all (by decide)) hwrite
  exact ⟨run_allocation formatted_blankDisk (by decide) hrun,
    run_allocation formatted_blankDisk (by decide) (hrun.call (below_of_all (by decide)) hdelete)⟩

/-! ## Sizes that wrap -/

section Wrap

variable {D : Nat} {v : Visit} {cs : List Nat} {path data : List UInt8} {name : Name}

/-- Data for which there are enough clusters can be appended to a file. -/
theorem Sound.append_succeeds (kmalloc : Nat → Option (Nat → UInt8)) (hg : g.Valid)
    (h : Sound g d) (hlead : LeadsTo g d path D name) (hD : IsDir g d D)
    (hl : lookup g d D name = some v) (hfile : v.entry.isDirectory = false)
    (hroom : g.clustersFor (v.entry.fileSize + data.length) ≤ (freeClusters g d).card) :
    ∃ d', Succeeds (writeFile path data true) g kmalloc d d' ∧
      Writes g d data true D v eok (clean d') := by
  have hlive := h.live_file hD (lookup_mem hl).1 hfile
  obtain ⟨cs, hcs, hlen⟩ := h.chain D v hlive
  rw [chainLength, hfile, if_neg Bool.false_ne_true] at hlen
  have hroom' : g.clustersFor (keptSize true v.entry.fileSize + data.length) ≤
      cs.length + (freeClusters g d).card := hroom.trans (Nat.le_add_left _ _)
  obtain ⟨d₁, first, ncs, hre, hlength, hok⟩ :=
    writeEntry_succeeds kmalloc hg hfile hcs hlen hroom' (dirBase g D)
  have hlooks := h.looks hg hD name
  rw [hl] at hlooks
  refine ⟨_, ?_, cs, d₁, first, ncs, hcs, hre, Or.inl ⟨rfl, rfl, hlength⟩⟩
  rw [writeFile_eq]
  exact onEntry_yields (regular_writeFound data true) hlead hlooks hok

/-- A write takes no more clusters than its bytes ask for. -/
theorem Writes.card_freeClusters (hg : g.Valid) (hv : LiveEntry g d D v)
    {append : Bool} (hw : Writes g d data append D v eok (clean d')) :
    (freeClusters g d).card ≤
      (freeClusters g d').card + g.clustersFor (keptSize append v.entry.fileSize + data.length) := by
  obtain ⟨cs, d₁, first, ncs, hcs, hre, ⟨-, hio, hlen⟩ | ⟨hcode, -⟩⟩ := hw
  · have hd' : d' = putRecord d₁ (dirBase g D) v.pos _ := congrArg Io.disk hio
    have hfat : ∀ c, g.IsCluster c → fat g d' c = fat g d₁ c := by
      rw [hd']
      exact fun c hc => fat_of_outside hg
        (fun lba hlba => putRecord_of_ne (pos_lt_slots hv.mem) hlba) hc
    have hsub : freeClusters g d ⊆ freeClusters g d' ∪ ncs.toFinset := by
      intro c hc
      obtain ⟨hcluster, hfree⟩ := mem_freeClusters.1 hc
      rw [Finset.mem_union, List.mem_toFinset, mem_freeClusters, hfat c hcluster]
      by_cases hnew : c ∈ ncs
      · exact Or.inr hnew
      · have hold : c ∉ cs := fun hmem => hcs.fat_ne_zero c hmem hfree
        exact Or.inl ⟨hcluster, (hre.fat_eq c hcluster hold hnew).trans hfree⟩
    have hcard := (Finset.card_le_card hsub).trans (Finset.card_union_le _ _)
    rwa [List.toFinset_card_of_nodup hre.owns.nodup, hlen] at hcard
  · exact absurd hcode (by decide)

/-- A file in the root directory that has grown to `2 ^ 32` bytes has a chain, and its entry says
that it is empty. -/
theorem Writes.wraps (hg : g.Valid) (h : Sound g d) (hv : LiveEntry g d 0 v)
    (hfile : v.entry.isDirectory = false) (hsize : v.entry.fileSize + data.length = 2 ^ 32)
    (hw : Writes g d data true 0 v eok (clean d')) : ¬ Allocation g d' := by
  obtain ⟨cs, d₁, first, ncs, hcs, hre, ⟨-, hio, hlen⟩ | ⟨hcode, -⟩⟩ := hw
  · have hzero : newSize true v.entry.fileSize data = 0 := by
      rw [newSize, if_pos rfl, hsize]
      rfl
    rw [hzero] at hio
    obtain rfl : d' = putRecord d₁ (dirBase g 0) v.pos (v.entry.withChain first 0) :=
      congrArg Io.disk hio
    have hmem : v ∈ entries g d₁ 0 := by
      rw [entries_congr (hre.records_eq h hv hfile hcs .root)]
      exact hv.mem
    obtain ⟨vs, ts, -, hset, -⟩ := entries_putRecord hmem
    have hlive : LiveEntry g (putRecord d₁ (dirBase g 0) v.pos (v.entry.withChain first 0)) 0
        (v.rewritten first 0) := by
      refine ⟨.root, ?_, isDot_withChain.not.2 hv.not_dot⟩
      rw [hset _ (clipped_entry hv.mem).withChain (isEntry_withChain (entry_isEntry hv.mem))]
      exact List.mem_append_right _ (List.mem_cons_self ..)
    have howns : Owns g (putRecord d₁ (dirBase g 0) v.pos (v.entry.withChain first 0)) first ncs :=
      hre.owns.congr fun c hc => fat_of_outside hg
        (fun lba hlba => putRecord_of_ne (pos_lt_slots hv.mem) hlba) (hre.owns.isCluster c hc)
    -- the chain of the entry is the one that the data asked for, and its size asks for none
    intro hallocation
    obtain ⟨cs', hcs', -, hlen'⟩ := hallocation.chain 0 _ hlive
    rw [show (v.rewritten first 0).entry.startingCluster = first from
      Record.startingCluster_withChain (hre.owns.start_lt hg)] at hcs'
    have hnone : chainLength g (v.rewritten first 0).entry = g.clustersFor 0 := by
      rw [chainLength, show (v.rewritten first 0).entry.isDirectory = false from
          Record.isDirectory_withChain.trans hfile,
        show (v.rewritten first 0).entry.fileSize = 0 from Record.fileSize_withChain (by omega)]
      rfl
    have hmany : ncs.length = g.clustersFor (2 ^ 32) := by rw [hlen, keptSize, if_pos rfl, hsize]
    have hpos := g.clustersFor_lt (Nat.zero_mod _) (Nat.two_pow_pos 32)
    rw [hcs'.unique howns, hnone, hmany] at hlen'
    omega
  · exact absurd hcode (by decide)

theorem clean_injective (h : clean d = clean d') : d = d' := congrArg Io.disk h

/-- A call has one result. -/
theorem Succeeds.unique {x : Fs Int} {d₁ d₂ : Disk} (h₁ : Succeeds x g kmalloc d d₁)
    (hx : x.Regular) (h₂ : Succeeds x g kmalloc d d₂) : d₁ = d₂ :=
  clean_injective (Prod.mk.inj (Yields.unique (hx.mono g kmalloc (clean d)) h₁ h₂)).2

/-- A volume with 255 sectors a cluster. -/
def largeClusters : Geometry where
  fatStartSector := 1
  rootDirSector := 158
  dataStartSector := 159
  rootDirSizeSectors := 1
  sectorsPerFat := 157
  fatCount := 1
  sectorsPerCluster := 255
  totalSectors := 10200159
  totalClusters := 40000
  fatStartSector_lt := Nat.le_of_ble_eq_true rfl
  rootDirSizeSectors_lt := Nat.le_of_ble_eq_true rfl
  sectorsPerFat_lt := Nat.le_of_ble_eq_true rfl
  fatCount_lt := Nat.le_of_ble_eq_true rfl
  sectorsPerCluster_lt := Nat.le_of_ble_eq_true rfl
  sectorsPerCluster_pos := Nat.le_of_ble_eq_true rfl
  totalSectors_lt := Nat.le_of_ble_eq_true rfl
  totalClusters_lt := Nat.le_of_ble_eq_true rfl
  rootDirSector_eq := rfl
  dataStartSector_eq := rfl

/-- The disk after a call on that volume. -/
def largeAfter (op : Call) (d : Disk) : Disk :=
  left (op.run.run largeClusters (fun _ => none) (clean d) 3)

theorem succeeds_largeAfter {op : Call}
    (h : returned (op.run.run largeClusters (fun _ => none) (clean d) 3) = some eok) :
    Succeeds op.run largeClusters (fun _ => none) d (largeAfter op d) :=
  yields_of_returned op.regular h

/-- The file `/a` is made, and one byte is written to it. -/
def emptyFile : Disk := largeAfter (.createFile [0x2F, 0x61]) blankDisk
def oneByte : Disk := largeAfter (.writeFile [0x2F, 0x61] [0x41] true) emptyFile

theorem formatted_largeClusters : Formatted largeClusters blankDisk := by
  refine ⟨⟨by decide, by decide, by decide⟩, fun _ _ => rfl, fun r hr => ?_⟩
  obtain ⟨p, -, rfl⟩ := List.mem_map.1 hr
  funext k
  exact ite_self 0

theorem Formatted.card_freeClusters (h : Formatted g d) :
    (freeClusters g d).card = g.totalClusters := by
  rw [freeClusters, Finset.filter_true_of_mem fun c hc => h.free c (Finset.mem_Ico.1 hc),
    Nat.card_Ico, Nat.add_sub_cancel]

/-- The clusters of a volume with 255 sectors a cluster hold a file of `2 ^ 32` bytes. -/
theorem sizes_wrap : ¬ ∀ (g : Geometry) (kmalloc : Nat → Option (Nat → UInt8)) (d₀ d : Disk),
    Formatted g d₀ → Run g kmalloc d₀ d → Allocation g d := by
  have hf := formatted_largeClusters
  have hpath : AsciiPath [0x2F, 0x61] := below_of_all (by decide)
  have hlead : ∀ d, LeadsTo largeClusters d [0x2F, 0x61] 0 [0x61] := leadsTo_a largeClusters
  have hcreate : Succeeds (Call.createFile [0x2F, 0x61]).run largeClusters (fun _ => none) blankDisk
      emptyFile := succeeds_largeAfter (by decide +kernel)
  have hwrite : Succeeds (Call.writeFile [0x2F, 0x61] [0x41] true).run largeClusters
      (fun _ => none) emptyFile oneByte := succeeds_largeAfter (by decide +kernel)
  obtain ⟨hsound, hall, hfat⟩ := createFile_sound hf.valid hf.sound
    (fun c hc htaken => absurd (hf.free c hc) htaken) hpath hcreate
  have hfree : (freeClusters largeClusters emptyFile).card = 40000 := by
    have hsame : freeClusters largeClusters emptyFile = freeClusters largeClusters blankDisk := by
      ext c
      rw [mem_freeClusters, mem_freeClusters, and_congr_right fun hc => by rw [hfat c hc]]
    rw [hsame]
    exact hf.card_freeClusters
  -- the file that is found, empty and with one byte
  have hempty : (lookup largeClusters emptyFile 0 [0x61]).any
      (fun v => v.entry.fileSize == 0 && !v.entry.isDirectory) = true := by decide +kernel
  have hone : (lookup largeClusters oneByte 0 [0x61]).any
      (fun v => v.entry.fileSize == 1 && !v.entry.isDirectory) = true := by decide +kernel
  obtain ⟨v, hv, hsize⟩ := (Option.any_eq_true _ _).1 hempty
  obtain ⟨w, hw, hsize'⟩ := (Option.any_eq_true _ _).1 hone
  simp only [Bool.and_eq_true, beq_iff_eq, Bool.not_eq_true'] at hsize hsize'
  have hroom : largeClusters.clustersFor (v.entry.fileSize + [(0x41 : UInt8)].length) ≤
      (freeClusters largeClusters emptyFile).card := by
    rw [hfree, hsize.1]
    decide
  obtain ⟨d₁, hok₁, hwrites⟩ :=
    hsound.append_succeeds (fun _ => none) hf.valid (hlead _) .root hv hsize.2 hroom
  rw [← hwrite.unique (Call.regular _) hok₁] at hwrites
  have hlive := hsound.live_file .root (lookup_mem hv).1 hsize.2
  obtain ⟨hsound₁, -⟩ := hwrites.sound hf.valid hsound hall hlive hsize.2
    (by simp [keptSize, hsize.1])
  have hcard := hwrites.card_freeClusters hf.valid hlive
  rw [hfree, keptSize, hsize.1, show largeClusters.clustersFor _ = 1 from rfl] at hcard
  -- the rest of the `2 ^ 32` bytes
  intro hclaim
  obtain ⟨data, hdata⟩ : ∃ data : List UInt8, data.length = 4294967295 :=
    ⟨List.replicate 4294967295 0, List.length_replicate⟩
  have hroom : largeClusters.clustersFor (w.entry.fileSize + data.length) ≤
      (freeClusters largeClusters oneByte).card := by
    rw [hsize'.1, hdata, show largeClusters.clustersFor _ = 32897 from rfl]
    omega
  obtain ⟨d₂, hok₂, hwrites₂⟩ := hsound₁.append_succeeds (fun _ => none) hf.valid (hlead _) .root hw
    hsize'.2 hroom
  have hlive₁ := hsound₁.live_file .root (lookup_mem hw).1 hsize'.2
  refine hwrites₂.wraps hf.valid hsound₁ hlive₁ hsize'.2 (by rw [hsize'.1, hdata]; norm_num) ?_
  have hstart : Run largeClusters (fun _ => none) blankDisk blankDisk := .start
  have hrun := hstart.call (below_of_all (by decide)) hcreate
  have hrun₁ := hrun.call (below_of_all (by decide)) hwrite
  have hpath₂ : AsciiPath (Call.writeFile [0x2F, 0x61] data true).path := hpath
  exact hclaim _ _ _ _ hf (hrun₁.call hpath₂ hok₂)

end Wrap

end Fat16

end BenmoshOS
