import BenmoshOS.Fat16.Spares

/-!
# FAT16: calls that fail

A call that returns an error has written nothing, but for three cases: a directory whose parent has
no room, and a write that has begun before the volume is full or that has made its file.

* `Fails` — what a failed call leaves behind.
* `failed_call_keeps` — every failed call is one of these.
* `failed_calls_change` — each of them comes about.
-/

namespace BenmoshOS

namespace Fat16

open Exec (Yields)
open Fs

variable {g : Geometry} {d d₁ : Disk} {kmalloc : Nat → Option (Nat → UInt8)} {D : Nat}
  {cs : List Nat} {ps : List (Nat × Nat)} {name : Name}

/-! ## What a failed call leaves -/

section Failures

variable {path data : List UInt8} {append : Bool} {code : Int} {io : Io} {found : Found}

/-- What a call that fails leaves of the volume `d`. -/
inductive Fails (g : Geometry) (d : Disk) : Call → Int → Disk → Prop
  | unchanged {op : Call} {code : Int} : Fails g d op code d
  | makeDirectory {path : List UInt8} {D c : Nat} {cs : List Nat} {name : Name} {d' : Disk}
      (hpath : LeadsTo g d path D name) (hD : Tree g d D cs) (hnew : Looks g d D name none)
      (hfull : ¬ HasRoom (dirRecords g d D cs) (lfnCount name + 1)) (hfree : LeastFree g d c)
      (hfat : ∀ a, g.IsCluster a → fat g d' a = if a = c then 0xFFFF else fat g d a)
      (hpreserves : Preserves g d d' [] []) : Fails g d (.makeDirectory path) (-enospc) d'
  | writeFile {path data : List UInt8} {append : Bool} {D : Nat} {cs : List Nat} {name : Name}
      {found : Found} {d' : Disk} (hpath : LeadsTo g d path D name) (hD : Tree g d D cs)
      (hfound : Looks g d D name (some found)) (hfile : found.entry.isDirectory = false)
      (hfull : NoneFree g d') (hpreserves : Preserves g d d' [] [(found.sector, found.idx)])
      (happend : append = true → fileBytes g d' found.entry = fileBytes g d found.entry) :
      Fails g d (.writeFile path data append) (-enospc) d'
  | writeNew {path data : List UInt8} {append : Bool} {D : Nat} {cs : List Nat} {name : Name}
      {ps : List (Nat × Nat)} {code : Int} {d' : Disk} (hpath : LeadsTo g d path D name)
      (hD : Tree g d D cs) (hnew : Looks g d D name none) (hcreated : Created g d d' D cs name ps)
      (hpreserves : Preserves g d d' ps [])
      (hcode : (code = -enospc ∧ NoneFree g d') ∨
        (code = -enoent ∧ (∀ c, g.IsCluster c → fat g d' c = fat g d c) ∧
          ¬ (Ascii name ∧ CleanDir false (dirRecords g d D cs)))) :
      Fails g d (.writeFile path data append) code d'
  -- the free slots cross a gap between the clusters of the directory
  | writeAcross {path data : List UInt8} {append : Bool} {D : Nat} {cs : List Nat} {name : Name}
      {code : Int} {d' : Disk} (hpath : LeadsTo g d path D name) (hD : Tree g d D cs)
      (hnew : Looks g d D name none) (hgap : ¬ RunAdjacent g d D cs (lfnCount name + 1)) :
      Fails g d (.writeFile path data append) code d'

/-- A write to an entry that fails has begun, and found no free cluster. -/
theorem writeEntry_fails (hg : g.Valid) (hidx : found.idx < 16)
    (hcs : found.entry.isDirectory = false → Owns g d found.entry.startingCluster cs ∧
      cs.length = g.clustersFor found.entry.fileSize)
    (hrun : Yields ((writeEntry found data append).run g kmalloc (clean d)) (code, io))
    (hneg : code < 0) :
    (found.entry.isDirectory = true ∧ io = clean d) ∨
    ∃ d', code = -enospc ∧ io = clean d' ∧ found.entry.isDirectory = false ∧ NoneFree g d' ∧
      Spares g d d' cs [] ∧
      (append = true → fileBytes g d' found.entry = fileBytes g d found.entry) := by
  by_cases hdir : found.entry.isDirectory = true
  · rw [writeEntry, if_pos hdir] at hrun
    obtain ⟨_, hrun⟩ := hrun
    exact Or.inl ⟨hdir, (Prod.mk.inj (Exec.ret.inj hrun)).2.symm⟩
  · have hfile : found.entry.isDirectory = false := by simpa using hdir
    obtain ⟨howns, hlen⟩ := hcs hfile
    have hvisit : found = (⟨found.idx, emptyBuffer, found.entry⟩ : Visit).found found.sector := by
      rw [Visit.found, Nat.div_eq_of_lt hidx, Nat.mod_eq_of_lt hidx]
      rfl
    rw [hvisit] at hrun
    obtain ⟨d', first, ncs, hre, ⟨hp, -⟩ | ⟨hp, hnone, -⟩⟩ :=
      writeEntry_cases hg hfile howns hlen hrun
    · obtain ⟨rfl, -⟩ := Prod.mk.inj hp
      exact absurd hneg (by decide)
    · obtain ⟨rfl, rfl⟩ := Prod.mk.inj hp
      refine Or.inr ⟨d', rfl, rfl, hfile, hnone, hre.spares, ?_⟩
      rintro rfl
      exact append_keeps (v := ⟨found.idx, emptyBuffer, found.entry⟩) hg hfile howns hlen hrun

/-- The entry is there; what follows it fails. -/
theorem Entered.fails (he : Entered g d d₁ D cs name ps) (hg : g.Valid) (h : WellFormed g d)
    (hD : Tree g d D cs) (hpath : LeadsTo g d path D name) (hnew : Looks g d D name none)
    {o : Option Found} (hl : Looks g d₁ D name o)
    (hrun : Yields (Fs.run (match o with
      | none => pure (-enoent)
      | some found => writeEntry found data append) g kmalloc (clean d₁)) (code, io))
    (hneg : code < 0) :
    ∃ d', io = clean d' ∧ Fails g d (.writeFile path data append) code d' := by
  have hlen := hpath.name.1
  rcases he.looks o hl with ⟨rfl, hname⟩ | ⟨found, b, rfl, hidx, hentry⟩
  · obtain ⟨_, hrun⟩ := hrun
    obtain ⟨rfl, rfl⟩ := Prod.mk.inj (Exec.ret.inj hrun)
    exact ⟨d₁, rfl, .writeNew hpath hD hnew he.created (he.preserves h hD hlen he.spares rfl)
      (Or.inr ⟨rfl, he.fat_eq, hname⟩)⟩
  · have hcluster : found.entry.startingCluster = 0 := by
      rw [hentry]
      exact startingCluster_sfnRecord (by decide)
    have hsize : found.entry.fileSize = 0 := by
      rw [hentry]
      exact fileSize_sfnRecord (by decide)
    have hfile : found.entry.isDirectory = false := by
      rw [hentry, Record.isDirectory, attributes_sfnRecord]
      rfl
    have hempty : found.entry.isDirectory = false →
        Owns g d₁ found.entry.startingCluster [] ∧
          ([] : List Nat).length = g.clustersFor found.entry.fileSize := by
      rw [hcluster, hsize]
      exact fun _ => ⟨owns_nil, g.clustersFor_zero.symm⟩
    rcases writeEntry_fails hg hidx hempty hrun hneg with
      ⟨hdir, -⟩ | ⟨d₂, rfl, rfl, -, hnone, hspares, -⟩
    · exact absurd (hfile.symm.trans hdir) (by decide)
    · have hsame := he.spares_records hD hspares
      have hboth : Spares g d d₂ [] ps := by
        have := he.spares.trans hspares
        rwa [List.append_nil] at this
      obtain ⟨a, hfirst, hrecords⟩ := he.created.records
      exact ⟨d₂, rfl, .writeNew hpath hD hnew
        ⟨he.created.places, he.created.free, a, hfirst, hsame.trans hrecords⟩
        (he.preserves h hD hlen hboth hsame) (Or.inl ⟨rfl, hnone⟩)⟩

theorem writeFound_fails (hg : g.Valid) (h : WellFormed g d) (hD : Tree g d D cs)
    (hpath : LeadsTo g d path D name) {o : Option Found} (hl : Looks g d D name o)
    (hrun : Yields ((writeFound data append D name o).run g kmalloc (clean d)) (code, io))
    (hneg : code < 0) :
    ∃ d', io = clean d' ∧ Fails g d (.writeFile path data append) code d' := by
  cases o with
  | some found =>
      have hmem := (h.looks_entry hg hD hl).1
      have hchain : ∃ ds, found.entry.isDirectory = false →
          InTree g d (found.sector, found.idx) ∧
            recordOf d (found.sector, found.idx) = found.entry ∧
            Owns g d found.entry.startingCluster ds ∧
            ds.length = g.clustersFor found.entry.fileSize := by
        by_cases hfile : found.entry.isDirectory = false
        · obtain ⟨hin, hrecord⟩ := h.looks_file hg hD hl hfile
          obtain ⟨ds, hds, hlen⟩ := h.chain _ hin
          rw [hrecord] at hds hlen
          rw [if_neg (by simp [hfile])] at hlen
          exact ⟨ds, fun _ => ⟨hin, hrecord, hds, hlen⟩⟩
        · exact ⟨[], fun hfile' => absurd hfile' hfile⟩
      obtain ⟨ds, hds⟩ := hchain
      rcases writeEntry_fails hg (mem_dirPlaces.1 hmem).2 (fun hfile => (hds hfile).2.2) hrun hneg
        with ⟨-, rfl⟩ | ⟨d', rfl, rfl, hfile, hnone, hspares, happend⟩
      · exact ⟨d, rfl, .unchanged⟩
      · obtain ⟨hin, hrecord, howns, -⟩ := hds hfile
        refine ⟨d', rfl, .writeFile hpath hD hl hfile hnone ?_ happend⟩
        refine hspares.preserves h (fun c _ => ?_) hD (by simp) (by simp)
        rw [← hrecord] at hfile howns
        exact ⟨_, List.mem_singleton_self _, hin, hfile, howns⟩
  | none =>
      by_cases hadj : RunAdjacent g d D cs (lfnCount name + 1)
      · obtain ⟨⟨res, io₁⟩, hres, hrest⟩ :=
          (yields_bind (regular_insertEntry D name attrArchive 0 0)
            (regular_writeNew data append D name)).1 hrun
        rcases h.inserted hg hD hpath.zero_not_mem (hpath.name.2 rfl) hpath.name.1 hl hadj hres with
          ⟨rfl, rfl⟩ | ⟨rfl, d₁, ps, rfl, he⟩
        · obtain ⟨_, hrest⟩ := hrest
          exact ⟨d, (Prod.mk.inj (Exec.ret.inj hrest)).2.symm, .unchanged⟩
        · obtain ⟨⟨o, io₂⟩, ho, hlast⟩ := (yields_bind (regular_findInDir .target D name)
            (regular_writeAgain data append)).1 hrest
          obtain ⟨hlooks, hio⟩ := (yields_findInDir _).1 ho
          obtain rfl : io₂ = clean d₁ := hio
          exact he.fails hg h hD hpath hl hlooks hlast hneg
      · obtain ⟨d', hio⟩ := (regular_writeFound data append D name none).clean_of_yields hrun
        exact ⟨d', hio, .writeAcross hpath hD hl hadj⟩

/-- An insertion that fails has written nothing. -/
theorem insertEntry_fails {attributes : UInt8} {cluster size : Nat}
    (hrun : Yields ((insertEntry D name attributes cluster size).run g kmalloc (clean d))
      (code, io)) (hneg : code < 0) : code = -enospc ∧ io = clean d ∧
      ∃ r, Iterates g d (slotSearchCallback (lfnCount name + 1)) D SlotCtx.zero r ∧
        r.2.done = false := by
  obtain ⟨a, r, -, hiter, hp⟩ := yields_insertEntry.1 hrun
  by_cases hdone : r.2.done = true
  · rw [if_pos hdone] at hp
    obtain ⟨rfl, -⟩ := Prod.mk.inj hp
    exact absurd hneg (by decide)
  · rw [if_neg hdone] at hp
    obtain ⟨rfl, rfl⟩ := Prod.mk.inj hp
    exact ⟨rfl, rfl, r, hiter, by simpa using hdone⟩

theorem makeFound_fails (hg : g.Valid) (h : WellFormed g d) (hD : Tree g d D cs)
    (hpath : LeadsTo g d path D name) {o : Option Found} (hl : Looks g d D name o)
    (hrun : Yields ((makeFound D name o).run g kmalloc (clean d)) (code, io)) (hneg : code < 0) :
    ∃ d', io = clean d' ∧ Fails g d (.makeDirectory path) code d' := by
  obtain ⟨n, hrun⟩ := hrun
  cases o with
  | some found => exact ⟨d, (Prod.mk.inj (Exec.ret.inj hrun)).2.symm, .unchanged⟩
  | none =>
      simp only [Fs.run, makeFound, Fs.bind_apply, Fs.geometry_apply, Exec.ret_bind] at hrun
      have hg' : (⟨g, n, kmalloc⟩ : Env).geom.Valid := hg
      rcases allocCluster_clean hg' d with ⟨c, hc, halloc⟩ | ⟨-, halloc⟩
      · have hc₀ : c ≠ 0 := by
          have := hc.isCluster.1
          omega
        simp only [halloc, Exec.ret_bind, if_neg hc₀, Fs.bind_apply, flushDirectory_clean,
          if_true] at hrun
        have hinsert : Yields ((insertEntry D name attrDirectory c 0).run g kmalloc
            (clean (prepared g d c D))) (code, io) := ⟨n, hrun⟩
        obtain ⟨rfl, rfl, r, hiter, hdone⟩ := insertEntry_fails hinsert hneg
        have hspares := LeastFree.prepared_spares hg hc D
        have howns : Owns g (prepared g d c D) D cs := hspares.owns hD.owns (by simp)
        have hrecords : dirRecords g (prepared g d c D) D cs = dirRecords g d D cs :=
          List.map_congr_left fun p hp => hspares.record hD.owns (by simp) hp (by simp)
        have hfull : ¬ HasRoom (dirRecords g d D cs) (lfnCount name + 1) := by
          cases slotSearch_places (howns.dirClusters hg) (Nat.succ_pos _) hiter with
          | full _ hroom => rwa [hrecords] at hroom
          | found hfound _ _ => exact absurd (hdone.symm.trans hfound) (by decide)
        exact ⟨_, rfl, .makeDirectory hpath hD hl hfull hc
          (fun a ha => fat_prepared hg hc.isCluster ha) (hspares.preserves_all h)⟩
      · simp only [halloc, Exec.ret_bind, if_true] at hrun
        exact ⟨d, (Prod.mk.inj (Exec.ret.inj hrun)).2.symm, .unchanged⟩

/-- A chain is freed and an entry marked without fail. -/
theorem removal_succeeds {x : Fs Unit} (hx : x.Total)
    (hrun : Yields ((x >>= fun _ => markDeleted found).run g kmalloc (clean d)) (code, io)) :
    code = eok := by
  obtain ⟨⟨_, io₁⟩, hfree, n, hmark⟩ :=
    (yields_bind hx.regular fun _ => (total_markDeleted found).regular).1 hrun
  obtain ⟨d₁, hio⟩ := hx.regular.clean_of_yields hfree
  obtain rfl : io₁ = clean d₁ := hio
  exact (Prod.mk.inj (Exec.ret.inj hmark)).1.symm

theorem deleteFound_fails {o : Option Found}
    (hrun : Yields ((deleteFound o).run g kmalloc (clean d)) (code, io)) (hneg : code < 0) :
    io = clean d := by
  cases o with
  | none =>
      obtain ⟨_, hrun⟩ := hrun
      exact (Prod.mk.inj (Exec.ret.inj hrun)).2.symm
  | some found =>
      by_cases hdir : found.entry.isDirectory = true
      · rw [deleteFound, if_pos hdir] at hrun
        obtain ⟨_, hrun⟩ := hrun
        exact (Prod.mk.inj (Exec.ret.inj hrun)).2.symm
      · rw [deleteFound, if_neg hdir] at hrun
        obtain rfl := removal_succeeds (total_when (total_freeChain _)) hrun
        exact absurd hneg (by decide)

theorem removeFound_fails {o : Option Found}
    (hrun : Yields ((removeFound o).run g kmalloc (clean d)) (code, io)) (hneg : code < 0) :
    io = clean d := by
  cases o with
  | none =>
      obtain ⟨_, hrun⟩ := hrun
      exact (Prod.mk.inj (Exec.ret.inj hrun)).2.symm
  | some found =>
      by_cases hdir : found.entry.isDirectory = true
      · rw [removeFound, if_pos hdir, yields_bind (regular_iterateDirectory _ _ _ _)
          fun r => (total_removeTail found r).regular] at hrun
        obtain ⟨⟨r, io₁⟩, hiter, hrest⟩ := hrun
        obtain ⟨-, hio⟩ := (yields_iterateDirectory _).1 hiter
        obtain rfl : io₁ = clean d := hio
        by_cases hfull : 0 < r.2
        · rw [if_pos hfull] at hrest
          obtain ⟨_, hrest⟩ := hrest
          exact (Prod.mk.inj (Exec.ret.inj hrest)).2.symm
        · rw [if_neg hfull] at hrest
          obtain rfl := removal_succeeds (total_freeChain _) hrest
          exact absurd hneg (by decide)
      · rw [removeFound, if_neg hdir] at hrun
        obtain ⟨_, hrun⟩ := hrun
        exact (Prod.mk.inj (Exec.ret.inj hrun)).2.symm

/-- **Failed calls.**  A call that returns an error has left everything as it was, or it is one of
those that `Fails` lists. -/
theorem failed_call_keeps (hg : g.Valid) (h : WellFormed g d) {op : Call}
    (hfail : Yields (op.run.run g kmalloc (clean d)) (code, io)) (hneg : code < 0) :
    ∃ d', io = clean d' ∧ Fails g d op code d' := by
  cases op with
  | createFile path =>
      rcases yields_onEntry regular_createFound hfail with ⟨_, -, hp⟩ | ⟨D, name, o, -, -, hrun⟩
      · exact ⟨d, (Prod.mk.inj hp).2, .unchanged⟩
      · cases o with
        | some found =>
            obtain ⟨_, hrun⟩ := hrun
            exact ⟨d, (Prod.mk.inj (Exec.ret.inj hrun)).2.symm, .unchanged⟩
        | none => exact ⟨d, (insertEntry_fails hrun hneg).2.1, .unchanged⟩
  | writeFile path data append =>
      rcases yields_onEntry (regular_writeFound data append) hfail with
        ⟨_, -, hp⟩ | ⟨D, name, o, hlead, hl, hrun⟩
      · exact ⟨d, (Prod.mk.inj hp).2, .unchanged⟩
      · have hpath := (hlead D name).2 ⟨rfl, rfl⟩
        obtain ⟨cs, hD⟩ := hpath.tree hg h
        exact writeFound_fails hg h hD hpath hl hrun hneg
  | deleteFile path =>
      rcases yields_onEntry (fun _ _ r => (total_deleteFound r).regular) hfail with
        ⟨_, -, hp⟩ | ⟨D, name, o, -, -, hrun⟩
      · exact ⟨d, (Prod.mk.inj hp).2, .unchanged⟩
      · exact ⟨d, deleteFound_fails hrun hneg, .unchanged⟩
  | makeDirectory path =>
      rcases yields_onEntry regular_makeFound hfail with
        ⟨_, -, hp⟩ | ⟨D, name, o, hlead, hl, hrun⟩
      · exact ⟨d, (Prod.mk.inj hp).2, .unchanged⟩
      · have hpath := (hlead D name).2 ⟨rfl, rfl⟩
        obtain ⟨cs, hD⟩ := hpath.tree hg h
        exact makeFound_fails hg h hD hpath hl hrun hneg
  | removeDirectory path =>
      rcases yields_onEntry (fun _ _ => regular_removeFound) hfail with
        ⟨_, -, hp⟩ | ⟨D, name, o, -, -, hrun⟩
      · exact ⟨d, (Prod.mk.inj hp).2, .unchanged⟩
      · exact ⟨d, removeFound_fails hrun hneg, .unchanged⟩

end Failures

/-! ## Failed calls that change the volume -/

section Counterexamples

/-- The clusters that are taken, the entries and what is in the files are the same. -/
structure Unchanged (g : Geometry) (d d' : Disk) : Prop where
  taken : ∀ c, g.IsCluster c → (fat g d' c = 0 ↔ fat g d c = 0)
  entries : ∀ D cs, Tree g d D cs → ∀ p ∈ dirPlaces g D cs,
    (recordOf d p).IsEntry ∨ (recordOf d' p).IsEntry → recordOf d' p = recordOf d p
  contents : ∀ p, InTree g d p → (recordOf d p).isDirectory = false →
    fileBytes g d' (recordOf d p) = fileBytes g d (recordOf d p)

/-- A volume that is well formed and has only complete runs of long-name records. -/
structure WellKept (d : Disk) : Prop where
  wellFormed : WellFormed wideGeometry d
  clean : ∀ D cs, Tree wideGeometry d D cs → CleanDir true (dirRecords wideGeometry d D cs)

/-- The call fails and does not leave the volume as it was. -/
def FailsChanging (op : Call) (d : Disk) : Prop :=
  WellKept d ∧ ∃ code d', code < 0 ∧
    Yields (op.run.run wideGeometry (fun _ => none) (clean d)) (code, clean d') ∧
    ¬ Unchanged wideGeometry d d'

theorem failsChanging_of_fat {op : Call} {c : Nat} (h : WellKept d)
    (hc : wideGeometry.IsCluster c)
    (hfail : returned (op.run.run wideGeometry (fun _ => none) (clean d) 3) = some (-enospc))
    (hfree : fat wideGeometry d c = 0) (htaken : fat wideGeometry (after op.run d) c ≠ 0) :
    FailsChanging op d := by
  refine ⟨h, -enospc, after op.run d, by decide, yields_of_returned op.regular hfail,
    fun hsame => htaken ?_⟩
  exact (hsame.taken c hc).2 hfree

/-- A volume without subdirectories. -/
theorem wellKept_of_files (h : Sound wideGeometry d)
    (hfiles : ∀ i < 16, (rootSlot d i).isDirectory = false)
    (hclean : CleanDir true (records wideGeometry d 0)) : WellKept d := by
  refine ⟨h.wellFormed, fun D cs hD => ?_⟩
  have hroot : D = 0 ∧ cs = [] := by
    induction hD with
    | root => exact ⟨rfl, rfl⟩
    | @sub D cs ds p _ hp hdir _ _ ih =>
        obtain ⟨rfl, rfl⟩ := ih
        have hmem : recordOf d p ∈ records wideGeometry d 0 := by
          rw [← dirRecords_flat]
          exact List.mem_map_of_mem hp.mem
        obtain ⟨i, hi, heq⟩ := rootSlot_mem hmem
        rw [heq, hfiles i hi] at hdir
        exact absurd hdir (by decide)
  obtain ⟨rfl, rfl⟩ := hroot
  have hflat := dirRecords_flat wideGeometry d 0
  exact hflat.symm ▸ hclean

/-- A volume whose root directory is full, and one with the file `/a`. -/
def fullRoot : Disk := after (createFile (0x2F :: List.replicate 195 0x61)) blankDisk
def oneFile : Disk := after (writeFile [0x2F, 0x61] [0x41] false) blankDisk

/-- The full root directory has come about in a run. -/
theorem sound_fullRoot : Sound wideGeometry fullRoot := by
  have hcreate : Succeeds (Call.createFile (0x2F :: List.replicate 195 0x61)).run wideGeometry
      (fun _ => none) blankDisk fullRoot := succeeds_after (Call.regular _) (by decide +kernel)
  have hstart : Run wideGeometry (fun _ => none) blankDisk blankDisk := .start
  have hrun := hstart.call (below_of_all (by decide +kernel)) hcreate
  exact (hrun.sound formatted_blankDisk (by decide)).1

theorem sound_oneFile : Sound wideGeometry oneFile := by
  have hwrite : Succeeds (Call.writeFile [0x2F, 0x61] [0x41] false).run wideGeometry
      (fun _ => none) blankDisk oneFile := succeeds_after (Call.regular _) (by decide +kernel)
  have hstart : Run wideGeometry (fun _ => none) blankDisk blankDisk := .start
  have hrun := hstart.call (below_of_all (by decide)) hwrite
  exact (hrun.sound formatted_blankDisk (by decide)).1

theorem wellKept_fullRoot : WellKept fullRoot :=
  wellKept_of_files sound_fullRoot (by decide +kernel)
    (cleanDir_root 15 (by decide) (by decide +kernel) (by decide +kernel) (by decide +kernel))

theorem wellKept_oneFile : WellKept oneFile :=
  wellKept_of_files sound_oneFile (by decide +kernel)
    (cleanDir_root 1 (by decide) (by decide +kernel) (by decide +kernel) (by decide +kernel))

theorem wellKept_blankDisk : WellKept blankDisk := by
  refine wellKept_of_files formatted_blankDisk.sound (by decide) (cleanDir_zero fun r hr => ?_)
  obtain ⟨i, -, rfl⟩ := rootSlot_mem hr
  rfl

/-- A directory whose parent is full takes a cluster.  Data that does not fit on the disk takes the
clusters that are left, for a new file and for one that is there.  A new file whose name the driver
does not find again stays behind. -/
theorem failed_calls_change :
    FailsChanging (.makeDirectory [0x2F, 0x62]) fullRoot ∧
      FailsChanging (.writeFile [0x2F, 0x61] (List.replicate 1025 0x42) false) blankDisk ∧
      (FailsChanging (.writeFile [0x2F, 0x61] (List.replicate 1025 0x42) false) oneFile ∧
        fileBytes wideGeometry oneFile (rootSlot oneFile 1) = [0x41] ∧
        fileBytes wideGeometry
          (after (writeFile [0x2F, 0x61] (List.replicate 1025 0x42) false) oneFile)
          (rootSlot oneFile 1) = [0x42]) ∧
      FailsChanging (.writeFile [0x2F, 0xFF] [0x41] false) blankDisk := by
  have htwo : wideGeometry.IsCluster 2 := ⟨by decide, by decide⟩
  have hthree : wideGeometry.IsCluster 3 := ⟨by decide, by decide⟩
  refine ⟨?_, ?_, ⟨?_, by decide +kernel, by decide +kernel⟩, wellKept_blankDisk, -enoent,
    after (writeFile [0x2F, 0xFF] [0x41] false) blankDisk, by decide, ?_, fun hsame => ?_⟩
  · exact failsChanging_of_fat wellKept_fullRoot htwo (by decide +kernel) (by decide +kernel)
      (by decide +kernel)
  · exact failsChanging_of_fat wellKept_blankDisk hthree (by decide +kernel)
      (by decide +kernel) (by decide +kernel)
  · exact failsChanging_of_fat wellKept_oneFile hthree (by decide +kernel)
      (by decide +kernel) (by decide +kernel)
  · exact yields_of_returned (Call.regular (.writeFile [0x2F, 0xFF] [0x41] false))
      (by decide +kernel)
  · -- the entry in the second slot is new
    have hentry : (recordOf (after (writeFile [0x2F, 0xFF] [0x41] false) blankDisk)
        (257, 1)).IsEntry := by decide +kernel
    have heq := hsame.entries 0 [] .root (257, 1) (by decide) (Or.inr hentry)
    rw [heq] at hentry
    exact hentry.not_free (Or.inl rfl)

/-- The directory `/b` does not fit into the full root directory. -/
theorem failed_call_keeps_b : Fails wideGeometry fullRoot (.makeDirectory [0x2F, 0x62]) (-enospc)
    (after (makeDirectory [0x2F, 0x62]) fullRoot) := by
  have hmake : Yields ((Call.makeDirectory [0x2F, 0x62]).run.run wideGeometry (fun _ => none)
      (clean fullRoot)) (-enospc, clean (after (makeDirectory [0x2F, 0x62]) fullRoot)) :=
    yields_of_returned (Call.regular _) (by decide +kernel)
  obtain ⟨d', hio, hfails⟩ := failed_call_keeps formatted_blankDisk.valid
    wellKept_fullRoot.wellFormed hmake (by decide)
  rwa [clean_injective hio]

end Counterexamples

end Fat16

end BenmoshOS
