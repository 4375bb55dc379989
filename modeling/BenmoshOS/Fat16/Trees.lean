import BenmoshOS.Fat16.Insertion
import BenmoshOS.Fat16.Files

/-!
# FAT16: volumes with directories of any size

The driver makes directories of one cluster; those of other systems have any number of them.

* `Tree` — the directories of a volume with their clusters; `InTree` — its entries.
* `WellFormed` — every entry has a chain of the length its size asks for, and no two share a
  cluster.
* `looks_sighting`, `WellFormed.looks_entry`, `LeadsTo.tree` — lookups and paths end at entries of
  the volume.
* `Sound.wellFormed` — the volumes of the driver are of this kind.
-/

namespace BenmoshOS

namespace Fat16

variable {g : Geometry} {d : Disk} {D : Nat} {cs ds : List Nat} {p : Nat × Nat} {name : Name}

/-! ## Lookups -/

section Lookups

variable {b : Nat → UInt8} {r : Record} {rs : List Record} {ps : List (Nat × Nat)}

/-- The bytes behind the long-name buffer, where the flag `found` lies, are zero. -/
def HighZero (b : Nat → UInt8) : Prop := ∀ k, 256 ≤ k → b k = 0

theorem HighZero.scanBuffer (hb : HighZero b) (hr : FlagFree r) :
    HighZero (Fat16.scanBuffer b r) := by
  intro k hk
  unfold Fat16.scanBuffer
  split_ifs with h₅ hlfn hlabel
  · rw [clearBuffer_eq hb]
    rfl
  · exact putFragment_eq_zero hb hlfn hr k hk
  · exact hb k hk
  · rw [clearBuffer_eq hb]
    rfl

theorem HighZero.foldl (hb : HighZero b) (hrs : ∀ r ∈ rs, FlagFree r) :
    HighZero (rs.foldl Fat16.scanBuffer b) := by
  induction rs generalizing b with
  | nil => exact hb
  | cons r rs ih =>
      exact ih (hb.scanBuffer (hrs r (List.mem_cons_self ..)))
        fun r' hr' => hrs r' (List.mem_cons_of_mem _ hr')

/-- The flag is not set by the records of long names. -/
theorem flag_lastBuffer (hrs : ∀ r ∈ rs, FlagFree r) :
    u32 (lastBuffer scanBuffer emptyBuffer rs) 256 = 0 := by
  have hhigh : HighZero (lastBuffer scanBuffer emptyBuffer rs) :=
    HighZero.foldl (fun _ _ => rfl) fun r hr => hrs r ((List.takeWhile_prefix _).subset hr)
  unfold u32 u16
  rw [hhigh 256 (by omega), hhigh 257 (by omega), hhigh 258 (by omega), hhigh 259 (by omega)]
  rfl

theorem scanResult_cases {base q : Nat} {ctx : FindCtx}
    (hflag : u32 (lastBuffer scanBuffer ctx.lfnBuffer rs) 256 = 0) :
    (scanResult name base q ctx rs = none ∧
      ∀ v ∈ sightings scanBuffer q ctx.lfnBuffer rs, ¬ v.Matches name) ∨
    ∃ v ∈ sightings scanBuffer q ctx.lfnBuffer rs, v.Matches name ∧
      scanResult name base q ctx rs = some (v.found base) := by
  unfold scanResult
  cases hfind : (sightings scanBuffer q ctx.lfnBuffer rs).find? (·.Matches name) with
  | some v =>
      exact Or.inr ⟨v, List.mem_of_find?_eq_some hfind, by simpa using List.find?_some hfind, rfl⟩
  | none =>
      exact Or.inl ⟨if_neg (not_not_intro hflag), by simpa using List.find?_eq_none.1 hfind⟩

/-- The context of a lookup at places and that of one at positions. -/
structure FindSim (ps : List (Nat × Nat)) (ctx ctx' : FindCtx) : Prop where
  buffer : ctx.lfnBuffer = ctx'.lfnBuffer
  out : (ctx.out = FindCtx.zero.out ∧ ctx'.out = FindCtx.zero.out) ∨
    ∃ j, ps[j]? = some (ctx.out.sector, ctx.out.idx) ∧
      ctx'.out = ⟨ctx.out.entry, 0 + j / 16, j % 16⟩

theorem findFileCallback_place {j : Nat} {ctx ctx' : FindCtx} (hp : ps[j]? = some p)
    (h : FindSim ps ctx ctx') :
    (findFileCallback name p.1 p.2 r ctx).1 =
      (findFileCallback name (0 + j / 16) (j % 16) r ctx').1 ∧
    FindSim ps (findFileCallback name p.1 p.2 r ctx).2
      (findFileCallback name (0 + j / 16) (j % 16) r ctx').2 := by
  unfold findFileCallback
  rw [h.buffer]
  split_ifs
  · exact ⟨rfl, h⟩
  · exact ⟨rfl, rfl, h.out⟩
  · exact ⟨rfl, rfl, h.out⟩
  · exact ⟨rfl, rfl, Or.inr ⟨j, hp, rfl⟩⟩
  · exact ⟨rfl, rfl, h.out⟩
  · exact ⟨rfl, h⟩

/-- A lookup finds the first sighting of the name, at its place in the directory. -/
theorem looks_sighting (hD : DirClusters g d D cs) (hflag : ∀ r ∈ dirRecords g d D cs, FlagFree r)
    {o : Option Found} (h : Looks g d D name o) :
    (o = none ∧ ∀ v ∈ sightings scanBuffer 0 emptyBuffer (dirRecords g d D cs),
      ¬ v.Matches name) ∨
    ∃ found v, o = some found ∧ v ∈ sightings scanBuffer 0 emptyBuffer (dirRecords g d D cs) ∧
      v.Matches name ∧ v.entry = found.entry ∧
      (dirPlaces g D cs)[v.pos]? = some (found.sector, found.idx) := by
  obtain ⟨r, hiter, rfl⟩ := h
  obtain rfl := (iterates_places hD).1 hiter
  obtain ⟨-, -, hsim⟩ : _ ∧ ∃ _ : Nat, FindSim (dirPlaces g D cs)
      (visitPlaces (findFileCallback name) d (dirPlaces g D cs) FindCtx.zero).2
      (visitList (findFileCallback name) 0 ((dirPlaces g D cs).map (recordOf d)) 0
        FindCtx.zero).2 :=
    visitPlaces_sim (R := fun _ => FindSim (dirPlaces g D cs))
      (fun j p ctx ctx' hp hR => findFileCallback_place hp hR) _ 0 _ _ rfl
      ⟨rfl, Or.inl ⟨rfl, rfl⟩⟩
  have hscan := scan_finds name 0 (dirRecords g d D cs) 0 FindCtx.zero
  rw [dirRecords] at hscan
  generalize (visitPlaces (findFileCallback name) d (dirPlaces g D cs) FindCtx.zero).2 = ctx
    at hsim ⊢
  generalize (visitList (findFileCallback name) 0 ((dirPlaces g D cs).map (recordOf d)) 0
    FindCtx.zero).2 = ctx' at hsim hscan
  have hfound : ctx.found = ctx'.found := congrArg (fun b => decide (u32 b 256 ≠ 0)) hsim.buffer
  have hzero : u32 (lastBuffer scanBuffer FindCtx.zero.lfnBuffer
      ((dirPlaces g D cs).map (recordOf d))) 256 = 0 := flag_lastBuffer hflag
  rcases scanResult_cases hzero with
    ⟨hresult, hall⟩ | ⟨v, hv, hmatch, hresult⟩
  · left
    rw [hresult] at hscan
    refine ⟨?_, hall⟩
    rw [hfound]
    by_cases hflagged : ctx'.found = true
    · rw [if_pos hflagged] at hscan
      exact absurd hscan (by simp)
    · exact if_neg hflagged
  · right
    rw [hresult] at hscan
    by_cases hflagged : ctx'.found = true
    · rw [if_pos hflagged] at hscan
      have hout : ctx'.out = ⟨v.entry, 0 + v.pos / 16, v.pos % 16⟩ := Option.some.inj hscan
      obtain ⟨xs, ys, -, -, -, hentry, -⟩ := sightings_split hv
      rcases hsim.out with ⟨-, hinit⟩ | ⟨j, hj, hplace⟩
      · -- an entry does not begin with a zero
        rw [hout] at hinit
        have hrecord : v.entry = fun _ => 0 := congrArg Found.entry hinit
        exact absurd (Or.inl (congrFun hrecord 0)) hentry.not_free
      · rw [hout] at hplace
        obtain ⟨hrecord, hsec, hidx⟩ := Found.mk.inj hplace
        obtain rfl : v.pos = j := by omega
        refine ⟨ctx.out, v, ?_, hv, hmatch, hrecord, hj⟩
        rw [hfound, if_pos hflagged]
    · rw [if_neg hflagged] at hscan
      exact absurd hscan (by simp)

end Lookups

/-! ## The tree -/

/-- Slot `p` of the directory holds an entry other than `.` and `..`. -/
structure EntryAt (g : Geometry) (d : Disk) (D : Nat) (cs : List Nat) (p : Nat × Nat) : Prop where
  mem : p ∈ dirPlaces g D cs
  isEntry : (recordOf d p).IsEntry
  not_dot : ¬ (recordOf d p).IsDot

/-- The directories of the volume with their clusters. -/
inductive Tree (g : Geometry) (d : Disk) : Nat → List Nat → Prop
  | root : Tree g d 0 []
  | sub {D : Nat} {cs ds : List Nat} {p : Nat × Nat} (hD : Tree g d D cs)
      (hp : EntryAt g d D cs p) (hdir : (recordOf d p).isDirectory = true)
      (hds : Owns g d (recordOf d p).startingCluster ds) (hne : ds ≠ []) :
      Tree g d (recordOf d p).startingCluster ds

/-- Slot `p` holds an entry of the volume. -/
def InTree (g : Geometry) (d : Disk) (p : Nat × Nat) : Prop :=
  ∃ D cs, Tree g d D cs ∧ EntryAt g d D cs p

/-- A well-formed volume: used slots come first in every directory, every entry has a chain of the
length its size asks for, and no cluster belongs to two entries.  Long names have 255 characters at
most, and the entries `.` and `..` lead to directories of the volume. -/
structure WellFormed (g : Geometry) (d : Disk) : Prop where
  flagFree : ∀ D cs, Tree g d D cs → ∀ r ∈ dirRecords g d D cs, FlagFree r
  zeroTail : ∀ D cs, Tree g d D cs → ZeroTail (dirRecords g d D cs)
  dots : ∀ D cs p, Tree g d D cs → p ∈ dirPlaces g D cs → (recordOf d p).IsEntry →
    (recordOf d p).IsDot → (recordOf d p).isDirectory = true ∧
      ∃ ds, Tree g d (recordOf d p).startingCluster ds
  chain : ∀ p, InTree g d p → ∃ ds, Owns g d (recordOf d p).startingCluster ds ∧
    if (recordOf d p).isDirectory then ds ≠ []
    else ds.length = g.clustersFor (recordOf d p).fileSize
  disjoint : ∀ p p' ds ds' c, InTree g d p → InTree g d p' →
    Owns g d (recordOf d p).startingCluster ds → Owns g d (recordOf d p').startingCluster ds' →
    c ∈ ds → c ∈ ds' → p = p'

section Trees

theorem Tree.owns (h : Tree g d D cs) : Owns g d D cs := by
  cases h with
  | root => exact ⟨Or.inl ⟨rfl, rfl⟩, by simp⟩
  | sub _ _ _ hds _ => exact hds

/-- A chain of clusters is followed to its end by `iterate_directory`. -/
theorem Owns.dirClusters (hg : g.Valid) (h : Owns g d D cs) : DirClusters g d D cs := by
  rcases h.chain with ⟨rfl, rfl⟩ | ⟨hne, hchain⟩
  · exact Or.inl ⟨rfl, rfl⟩
  · have hlive : ∀ {v : Nat} {cs : List Nat}, Chain (fat g d) Eof v cs →
        (∀ c ∈ cs, g.IsCluster c) → Chain (fat g d) (fun c => ¬ Live c) v cs := by
      intro v cs hchain hcs
      induction cs generalizing v with
      | nil => exact fun hlive => absurd hlive.2 (Nat.not_lt.2 hchain)
      | cons c cs ih =>
          have hc := hcs c (List.mem_cons_self ..)
          have hres := IsCluster.lt_reserved hg hc
          refine ⟨hchain.1, not_not_intro ⟨hc.1, by omega⟩, ih hchain.2.2 fun a ha => ?_⟩
          exact hcs a (List.mem_cons_of_mem _ ha)
    refine Or.inr ⟨?_, hlive hchain h.isCluster⟩
    cases cs with
    | nil => exact absurd rfl hne
    | cons c cs =>
        have hc := (h.isCluster c (List.mem_cons_self ..)).1
        rw [hchain.1]
        omega

theorem Tree.dirClusters (hg : g.Valid) (h : Tree g d D cs) : DirClusters g d D cs :=
  h.owns.dirClusters hg

/-- The sectors of a directory: those of the root, or of its clusters. -/
theorem Owns.mem_dirLbas (h : Owns g d D cs) {lba : Nat} : lba ∈ dirLbas g D cs ↔
    (D = 0 ∧ g.rootDirSector ≤ lba ∧ lba < g.rootDirSector + g.rootDirSizeSectors) ∨
      ∃ c ∈ cs, g.InCluster c lba := by
  unfold dirLbas
  rcases h.chain with ⟨rfl, rfl⟩ | ⟨hne, hchain⟩
  · rw [if_pos rfl, List.mem_range'_1]
    simp
  · have hD : D ≠ 0 := by
      rintro rfl
      cases cs with
      | nil => exact absurd rfl hne
      | cons c cs =>
          have hc := (h.isCluster c (List.mem_cons_self ..)).1
          rw [← hchain.1] at hc
          omega
    rw [if_neg hD, List.mem_flatMap, or_iff_right fun h => hD h.1]
    refine exists_congr fun c => and_congr_right fun _ => ?_
    rw [List.mem_range'_1]
    rfl

theorem mem_dirPlaces : p ∈ dirPlaces g D cs ↔ p.1 ∈ dirLbas g D cs ∧ p.2 < 16 := by
  obtain ⟨lba, i⟩ := p
  unfold dirPlaces placesOf
  simp only [List.mem_flatMap, List.mem_map, List.mem_range, Prod.mk.injEq]
  constructor
  · rintro ⟨_, hlba, _, hi, rfl, rfl⟩
    exact ⟨hlba, hi⟩
  · exact fun ⟨hlba, hi⟩ => ⟨lba, hlba, i, hi, rfl, rfl⟩

/-- The entry that a lookup finds lies in the directory. -/
theorem WellFormed.looks_entry (hg : g.Valid) (h : WellFormed g d) (hD : Tree g d D cs)
    {found : Found} (hl : Looks g d D name (some found)) :
    (found.sector, found.idx) ∈ dirPlaces g D cs ∧
      recordOf d (found.sector, found.idx) = found.entry ∧ found.entry.IsEntry := by
  rcases looks_sighting (hD.dirClusters hg) (h.flagFree D cs hD) hl with ⟨hnone, -⟩ |
    ⟨_, v, heq, hv, -, hentry, hplace⟩
  · exact absurd hnone (by simp)
  · obtain rfl := Option.some.inj heq
    obtain ⟨xs, ys, hrs, hpos, -, he, -⟩ := sightings_split hv
    have hget : (dirRecords g d D cs)[v.pos]? = some v.entry := by
      rw [hrs, hpos, Nat.zero_add, List.getElem?_append_right (Nat.le_refl _), Nat.sub_self]
      rfl
    rw [dirRecords, List.getElem?_map, hplace] at hget
    exact ⟨List.mem_of_getElem? hplace, (Option.some.inj hget).trans hentry, hentry ▸ he⟩

/-- A directory that a lookup finds is one of the tree. -/
theorem WellFormed.looks_directory (hg : g.Valid) (h : WellFormed g d) (hD : Tree g d D cs)
    {found : Found} (hl : Looks g d D name (some found)) (hdir : found.entry.isDirectory = true) :
    ∃ ds, Tree g d found.entry.startingCluster ds := by
  obtain ⟨hmem, hrecord, hentry⟩ := h.looks_entry hg hD hl
  rw [← hrecord] at hdir hentry ⊢
  by_cases hdot : (recordOf d (found.sector, found.idx)).IsDot
  · exact (h.dots D cs _ hD hmem hentry hdot).2
  · have hat : EntryAt g d D cs (found.sector, found.idx) := ⟨hmem, hentry, hdot⟩
    obtain ⟨ds, hds, hlen⟩ := h.chain _ ⟨D, cs, hD, hat⟩
    rw [if_pos hdir] at hlen
    exact ⟨ds, .sub hD hat hdir hds hlen⟩

/-- A file that a lookup finds is an entry of the volume. -/
theorem WellFormed.looks_file (hg : g.Valid) (h : WellFormed g d) (hD : Tree g d D cs)
    {found : Found} (hl : Looks g d D name (some found)) (hfile : found.entry.isDirectory = false) :
    InTree g d (found.sector, found.idx) ∧ recordOf d (found.sector, found.idx) = found.entry := by
  obtain ⟨hmem, hrecord, hentry⟩ := h.looks_entry hg hD hl
  refine ⟨⟨D, cs, hD, hmem, hrecord.symm ▸ hentry, fun hdot => ?_⟩, hrecord⟩
  obtain ⟨hdir, -⟩ := h.dots D cs _ hD hmem (hrecord.symm ▸ hentry) hdot
  rw [hrecord, hfile] at hdir
  exact absurd hdir (by decide)

/-- Paths lead to directories of the tree. -/
theorem LeadsTo.tree (hg : g.Valid) (h : WellFormed g d) {path : List UInt8}
    (hlead : LeadsTo g d path D name) : ∃ cs, Tree g d D cs := by
  suffices hasks : ∀ {D₀ D : Nat} {tail : List UInt8} {name : Name} {last : Bool},
      Asks g d D₀ tail D name last → ∀ cs, Tree g d D₀ cs → ∃ cs, Tree g d D cs from
    hasks hlead [] .root
  intro D₀ D tail name last hasks
  induction hasks with
  | inner => exact fun cs hcs => ⟨cs, hcs⟩
  | last => exact fun cs hcs => ⟨cs, hcs⟩
  | dot _ _ _ ih => exact ih
  | down _ _ _ hfound hdir _ ih =>
      intro cs hcs
      obtain ⟨ds, hds⟩ := h.looks_directory hg hcs hfound hdir
      exact ih ds hds

end Trees

/-! ## The volumes of the driver -/

section Flat

/-- The clusters of a directory that the driver has made. -/
def flatClusters (D : Nat) : List Nat := if D = 0 then [] else [D]

/-- The place at position `q` of a directory in one piece. -/
def placeAt (g : Geometry) (D q : Nat) : Nat × Nat := (dirBase g D + q / 16, q % 16)

theorem dirPlaces_flat (g : Geometry) (D : Nat) :
    dirPlaces g D (flatClusters D) = (List.range' 0 (16 * dirSectors g D)).map (placeAt g D) := by
  have hlbas : dirLbas g D (flatClusters D) = List.range' (dirBase g D) (dirSectors g D) := by
    unfold dirLbas flatClusters dirBase dirSectors
    by_cases hD : D = 0
    · simp only [if_pos hD]
    · simp only [if_neg hD, List.flatMap_singleton]
  rw [dirPlaces, hlbas, placesOf_range']
  rfl

theorem dirRecords_flat (g : Geometry) (d : Disk) (D : Nat) :
    dirRecords g d D (flatClusters D) = records g d D := by
  rw [dirRecords, dirPlaces_flat, List.map_map]
  rfl

theorem placeAt_mem {v : Visit} (hv : v ∈ entries g d D) :
    placeAt g D v.pos ∈ dirPlaces g D (flatClusters D) ∧
      recordOf d (placeAt g D v.pos) = v.entry := by
  refine ⟨?_, slotAt_entry hv⟩
  rw [dirPlaces_flat]
  exact List.mem_map_of_mem (List.mem_range'_1.2 ⟨Nat.zero_le _, by
    have := pos_lt_slots hv
    omega⟩)

/-- An entry in a slot is one that a scan meets. -/
theorem exists_visit (hz : ZeroTail (records g d D))
    (hp : p ∈ dirPlaces g D (flatClusters D)) (he : (recordOf d p).IsEntry) :
    ∃ v ∈ entries g d D, placeAt g D v.pos = p ∧ v.entry = recordOf d p := by
  rw [dirPlaces_flat] at hp
  obtain ⟨q, hq, rfl⟩ := List.mem_map.1 hp
  have hlt : q < (records g d D).length := by
    rw [records, length_slots]
    have := List.mem_range'_1.1 hq
    omega
  have hget : (records g d D)[q] = recordOf d (placeAt g D q) := by
    simp only [records, slots, List.getElem_map, List.getElem_range', Nat.zero_add, Nat.one_mul]
    rfl
  have hsplit : records g d D = (records g d D).take q ++
      recordOf d (placeAt g D q) :: (records g d D).drop (q + 1) := by
    rw [← hget, ← List.drop_eq_getElem_cons hlt, List.take_append_drop]
  have hbefore : ∀ r ∈ (records g d D).take q, r 0 ≠ 0x00 := by
    intro r hr hzero
    rw [hsplit] at hz
    have hlater := (List.pairwise_append.1 hz).2.2 r hr _ (List.mem_cons_self ..) hzero
    exact he.not_free (Or.inl hlater)
  have hlen : ((records g d D).take q).length = q := by
    rw [List.length_take, Nat.min_eq_left hlt.le]
  refine ⟨⟨q, bufferAfter emptyBuffer ((records g d D).take q), recordOf d (placeAt g D q)⟩, ?_,
    rfl, rfl⟩
  rw [entries, hsplit, visits_middle hbefore he]
  refine List.mem_append_right _ ?_
  rw [List.take_left' hlen, hlen, Nat.zero_add]
  exact List.mem_cons_self ..

/-- The directories of the tree are those of a sound volume. -/
theorem Sound.tree_iff (h : Sound g d) : Tree g d D cs ↔ IsDir g d D ∧ cs = flatClusters D := by
  have hsub : ∀ {D : Nat} {v : Visit}, LiveEntry g d D v → v.entry.isDirectory = true →
      Owns g d v.entry.startingCluster (flatClusters v.entry.startingCluster) := by
    intro D v hv hdir
    have hchain := h.dirChain hv hdir
    have hpos := (hchain.isCluster _ (List.mem_singleton_self _)).1
    rwa [flatClusters, if_neg (by omega)]
  constructor
  · intro hD
    induction hD with
    | root => exact ⟨.root, rfl⟩
    | @sub D cs ds p _ hp hdir hds _ ih =>
        obtain ⟨hD, rfl⟩ := ih
        obtain ⟨v, hv, -, hentry⟩ := exists_visit (h.zeroTail D hD) hp.mem hp.isEntry
        rw [← hentry] at hdir hds ⊢
        have hlive : LiveEntry g d D v := ⟨hD, hv, hentry ▸ hp.not_dot⟩
        exact ⟨.sub hD hv hdir hlive.not_dot, hds.unique (hsub hlive hdir)⟩
  · rintro ⟨hD, rfl⟩
    induction hD with
    | root => exact .root
    | @sub D v hD hv hdir hdot ih =>
        obtain ⟨hmem, hentry⟩ := placeAt_mem hv
        have hchain := hsub ⟨hD, hv, hdot⟩ hdir
        have hpos := (h.dirChain ⟨hD, hv, hdot⟩ hdir).isCluster _ (List.mem_singleton_self _)
        rw [← hentry] at hdir hdot hchain hpos ⊢
        refine .sub ih ⟨hmem, hentry ▸ entry_isEntry hv, hdot⟩ hdir hchain ?_
        rw [flatClusters, if_neg (by have := hpos.1; omega)]
        exact List.cons_ne_nil _ _

/-- The entries are the live ones. -/
theorem Sound.inTree_iff (h : Sound g d) :
    InTree g d p ↔ ∃ D v, LiveEntry g d D v ∧ placeAt g D v.pos = p ∧ v.entry = recordOf d p := by
  constructor
  · rintro ⟨D, cs, hD, hp⟩
    obtain ⟨hdirD, rfl⟩ := h.tree_iff.1 hD
    obtain ⟨v, hv, hplace, hentry⟩ := exists_visit (h.zeroTail D hdirD) hp.mem hp.isEntry
    exact ⟨D, v, ⟨hdirD, hv, hentry ▸ hp.not_dot⟩, hplace, hentry⟩
  · rintro ⟨D, v, hv, rfl, hentry⟩
    refine ⟨D, _, h.tree_iff.2 ⟨hv.isDir, rfl⟩, (placeAt_mem hv.mem).1, ?_, ?_⟩
    · exact hentry ▸ entry_isEntry hv.mem
    · exact hentry ▸ hv.not_dot

/-- **The volumes of the driver are well formed.** -/
theorem Sound.wellFormed (h : Sound g d) : WellFormed g d := by
  refine ⟨fun D cs hD => ?_, fun D cs hD => ?_, fun D cs p hD hp he hdot => ?_, fun p hp => ?_,
    fun p p' ds ds' c hp hp' hds hds' hc hc' => ?_⟩
  · obtain ⟨hdirD, rfl⟩ := h.tree_iff.1 hD
    rw [dirRecords_flat]
    exact h.flagFree D hdirD
  · obtain ⟨hdirD, rfl⟩ := h.tree_iff.1 hD
    rw [dirRecords_flat]
    exact h.zeroTail D hdirD
  · obtain ⟨hdirD, rfl⟩ := h.tree_iff.1 hD
    obtain ⟨v, hv, -, hentry⟩ := exists_visit (h.zeroTail D hdirD) hp he
    rw [← hentry] at hdot ⊢
    have hdir : v.entry.isDirectory = true := by
      by_cases h₀ : D = 0
      · subst h₀
        exact absurd hdot (h.root_dots v hv)
      · obtain ⟨P, u, hu, hudir, rfl⟩ := Sound.parent hdirD h₀
        exact (h.dots P u v hu hudir hv hdot).isDirectory
    exact ⟨hdir, _, h.tree_iff.2 ⟨h.isDir_of_entry hdirD hv hdir, rfl⟩⟩
  · obtain ⟨D, v, hv, -, hentry⟩ := h.inTree_iff.1 hp
    obtain ⟨ds, hds, hlen⟩ := h.chain D v hv
    rw [← hentry]
    refine ⟨ds, hds, ?_⟩
    rw [chainLength] at hlen
    split
    · rename_i hdir
      rw [if_pos hdir] at hlen
      rintro rfl
      exact absurd hlen (by decide)
    · rename_i hfile
      rwa [if_neg hfile] at hlen
  · obtain ⟨D, v, hv, rfl, hentry⟩ := h.inTree_iff.1 hp
    obtain ⟨D', v', hv', rfl, hentry'⟩ := h.inTree_iff.1 hp'
    rw [← hentry] at hds
    rw [← hentry'] at hds'
    obtain ⟨rfl, hpos⟩ := h.disjoint D v ds D' v' ds' c hv hv' hds hds' hc hc'
    rw [hpos]

end Flat

end Fat16

end BenmoshOS
