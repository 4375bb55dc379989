import BenmoshOS.Fat16.Ownership

/-!
# FAT16: what the calls do to a sound volume

For `fat16_create_file`, `fat16_delete_file`, `fat16_make_directory` and
`fat16_remove_directory`: what a returning call has done to the disk
(`createFile_cases`, …), and that the volume is sound again (`createFile_sound`, …).
A call that fails has written nothing, with one exception: `fat16_make_directory`
takes a cluster before it looks for room in the parent directory.
-/

namespace BenmoshOS

namespace Fat16

variable {env : Env} {g : Geometry} {d d' : Disk} {io' : Io} {code : Int}

/-! ## Entries on disk -/

theorem entries_split {D : Nat} {v : Visit} (h : v ∈ entries g d D) :
    ∃ xs ys, records g d D = xs ++ v.entry :: ys ∧ xs.length = v.pos ∧ (∀ r ∈ xs, r 0 ≠ 0x00) ∧
      v.entry.IsEntry ∧ v.buffer = bufferAfter emptyBuffer xs := by
  obtain ⟨xs, ys, hrs, hpos, hrest⟩ := visits_split h
  exact ⟨xs, ys, hrs, by omega, hrest⟩

theorem slotAt_entry {D : Nat} {v : Visit} (h : v ∈ entries g d D) :
    slotAt d (dirBase g D) v.pos = v.entry := by
  obtain ⟨xs, ys, hrs, hpos, -⟩ := entries_split h
  have hget : (records g d D)[v.pos]? = some v.entry := by
    rw [hrs, ← hpos, List.getElem?_append_right (le_refl _), Nat.sub_self]
    rfl
  rw [records, slots, List.getElem?_map, List.getElem?_range' (pos_lt_slots h)] at hget
  simpa using hget

theorem clipped_entry {D : Nat} {v : Visit} (h : v ∈ entries g d D) : v.entry.Clipped := by
  rw [← slotAt_entry h]
  exact recordAt_clipped _ _

/-- Replacing the record of an entry changes the record list at its position. -/
theorem records_putRecord {D p : Nat} {r : Record} (hr : r.Clipped) :
    records g (putRecord d (dirBase g D) p r) D = (records g d D).set p r := by
  have h := slots_putRecord d (dirBase g D) 0 p (16 * dirSectors g D) hr
  rwa [Nat.zero_add] at h

/-- Replacing the record of an entry by another entry, or by a tombstone. -/
theorem entries_putRecord {D : Nat} {v : Visit} (h : v ∈ entries g d D) :
    ∃ vs ts, entries g d D = vs ++ v :: ts ∧
      (∀ r : Record, r.Clipped → r.IsEntry →
        entries g (putRecord d (dirBase g D) v.pos r) D = vs ++ ⟨v.pos, v.buffer, r⟩ :: ts) ∧
      (∀ r : Record, r.Clipped → r 0 = 0xE5 →
        entries g (putRecord d (dirBase g D) v.pos r) D = vs ++ ts) := by
  obtain ⟨xs, ys, hrs, hpos, hxs, he, hbuf⟩ := entries_split h
  have hset : ∀ r, (records g d D).set v.pos r = xs ++ r :: ys := by
    intro r
    rw [hrs, ← hpos, List.set_append_right _ _ (le_refl _), Nat.sub_self, List.set_cons_zero]
  have hentry : ∀ r : Record, r.IsEntry → visits 0 emptyBuffer (xs ++ r :: ys) =
      visits 0 emptyBuffer xs ++ ⟨v.pos, v.buffer, r⟩ :: visits (v.pos + 1) emptyBuffer ys := by
    intro r hr
    rw [visits_middle hxs hr, Nat.zero_add, hpos, hbuf]
  refine ⟨visits 0 emptyBuffer xs, visits (v.pos + 1) emptyBuffer ys, ?_, ?_, ?_⟩
  · rw [entries, hrs, hentry _ he]
  · intro r hclip hr
    rw [entries, records_putRecord hclip, hset, hentry r hr]
  · intro r hclip hr
    rw [entries, records_putRecord hclip, hset, visits_tombstone hxs hr, Nat.zero_add, hpos]

theorem zeroTail_putRecord {D : Nat} {v : Visit} (h : v ∈ entries g d D)
    (hz : ZeroTail (records g d D)) {r : Record} (hclip : r.Clipped) (hr : r 0 ≠ 0x00) :
    ZeroTail (records g (putRecord d (dirBase g D) v.pos r) D) := by
  obtain ⟨xs, ys, hrs, hpos, hxs, -⟩ := entries_split h
  rw [records_putRecord hclip, hrs, ← hpos, List.set_append_right _ _ (le_refl _), Nat.sub_self,
    List.set_cons_zero]
  rw [hrs] at hz
  obtain ⟨h₁, h₂, h₃⟩ := List.pairwise_append.1 hz
  refine List.pairwise_append.2 ⟨h₁, ?_, fun a ha b _ h₀ => absurd h₀ (hxs a ha)⟩
  exact List.pairwise_cons.2 ⟨fun b _ h₀ => absurd h₀ hr, (List.pairwise_cons.1 h₂).2⟩

theorem flagFree_putRecord {D p : Nat} (hflag : ∀ r ∈ records g d D, FlagFree r) {r : Record}
    (hclip : r.Clipped) (hr : FlagFree r) :
    ∀ r' ∈ records g (putRecord d (dirBase g D) p r) D, FlagFree r' := by
  intro r' hr'
  rw [records_putRecord hclip] at hr'
  rcases List.mem_or_eq_of_mem_set hr' with hr' | rfl
  · exact hflag r' hr'
  · exact hr

/-- A write into a directory touches no other directory and no FAT entry. -/
theorem putRecord_of_ne {D p : Nat} {r : Record} (hp : p < 16 * dirSectors g D) {lba : Nat}
    (h : ¬ DirSector g D lba) : putRecord d (dirBase g D) p r lba = d lba := by
  refine Disk.set_of_ne ?_
  rintro rfl
  exact h ⟨by omega, by omega⟩

theorem records_of_ne {D₀ D : Nat} (hD₀ : DirNumber D₀) (hD : DirNumber D) (hne : D ≠ D₀)
    (h : ∀ lba, ¬ DirSector g D₀ lba → d' lba = d lba) : records g d' D = records g d D := by
  refine records_congr fun lba hlba => h lba fun h₀ => hne ?_
  exact hlba.eq hD hD₀ h₀

theorem fat_of_outside (hg : g.Valid) {D₀ c : Nat}
    (h : ∀ lba, ¬ DirSector g D₀ lba → d' lba = d lba) (hc : g.IsCluster c) :
    fat g d' c = fat g d c := by
  unfold fat
  rw [h]
  have hlt := IsCluster.lt_fat hg hc
  have hbase := g.rootDirSector_le_dirBase D₀
  have hmul : 1 * g.sectorsPerFat ≤ g.fatCount * g.sectorsPerFat :=
    Nat.mul_le_mul_right _ hg.fatCount_pos
  have hroot := g.rootDirSector_eq
  rintro ⟨hle, -⟩
  omega

/-- FAT writes and a write into a directory commute. -/
theorem clearAll_putRecord (hg : g.Valid) {cs : List Nat} (hcs : ∀ c ∈ cs, g.IsCluster c)
    {D p : Nat} {r : Record} :
    clearAll g (putRecord d (dirBase g D) p r) cs =
      putRecord (clearAll g d cs) (dirBase g D) p r := by
  have hle : g.rootDirSector ≤ dirBase g D + p / 16 :=
    (g.rootDirSector_le_dirBase D).trans (Nat.le_add_right _ _)
  unfold putRecord
  rw [clearAll_set hg hcs hle, clearAll_of_le hg hcs hle]

/-- Clusters without an owner are freed. -/
theorem Sound.clearAll (hg : g.Valid) {cs : List Nat} (hcs : ∀ c ∈ cs, g.IsCluster c) :
    ∀ {d : Disk}, Sound g d → (∀ c ∈ cs, ¬ Owned g d c) →
      Sound g (clearAll g d cs) ∧ ∀ c, Owned g (Fat16.clearAll g d cs) c ↔ Owned g d c := by
  induction cs with
  | nil => exact fun h _ => ⟨h, fun c => Iff.rfl⟩
  | cons a cs ih =>
      intro d h hown
      obtain ⟨h₁, ho₁⟩ := h.setFat hg (v := 0) (hcs a (List.mem_cons_self ..))
        (hown a (List.mem_cons_self ..)) (by omega)
      obtain ⟨h₂, ho₂⟩ := ih (fun c hc => hcs c (List.mem_cons_of_mem _ hc)) h₁
        fun c hc => (ho₁ c).not.2 (hown c (List.mem_cons_of_mem _ hc))
      exact ⟨h₂, fun c => (ho₂ c).trans (ho₁ c)⟩

theorem markDeleted_clean (base : Nat) (v : Visit) :
    markDeleted (v.found base) env (clean d) =
      .ret (eok, clean (putRecord d base v.pos (setByte (slotAt d base v.pos) 0 0xE5))) := by
  have hset : setByte (d (base + v.pos / 16)) (32 * (v.pos % 16) + 0) 0xE5 = _ :=
    setByte_eq_setRecord 0xE5 (by omega)
  rw [Nat.add_zero] at hset
  simp only [markDeleted, Visit.found, Fs.bind_apply, ataReadSector_clean, ataWriteSector_clean,
    Exec.ret_bind, if_true, Fs.pure_apply, hset]
  rfl

/-! ## Resolution of the path -/

/-- The path leads to `name` in directory `D`. -/
structure Resolves (env : Env) (d : Disk) (path : List UInt8) (D : Nat) (name : Name) : Prop where
  eq : resolvePath path env (clean d) = .ret (.ok (D, name), clean d)
  isDir : IsDir env.geom d D
  component : Component (cString path) name

/-- Every call begins with the resolution of its path and passes on an error of it. -/
theorem resolve_cases (hg : env.geom.Valid) (hfuel : 2 ≤ env.fuel) (h : Sound env.geom d)
    {path : List UInt8} {f : Except Int (Nat × Name) → Fs Int}
    (hf : ∀ e, f (.error e) = pure e)
    (hrun : (resolvePath path >>= f) env (clean d) = .ret (code, io')) :
    (code < 0 ∧ io' = clean d) ∨
    ∃ D name, Resolves env d path D name ∧ f (.ok (D, name)) env (clean d) = .ret (code, io') := by
  obtain ⟨r, hr, hres⟩ := resolvePath_clean hg hfuel h path
  rw [Fs.bind_apply, hr, Exec.ret_bind] at hrun
  match r, hr, hres with
  | .error e, _, he =>
      rw [hf, Fs.pure_apply] at hrun
      simp only [Exec.ret.injEq, Prod.mk.injEq] at hrun
      rw [← hrun.1, ← hrun.2]
      exact Or.inl ⟨he, rfl⟩
  | .ok (D, name), hr, ⟨hD, hname⟩ => exact Or.inr ⟨D, name, ⟨hr, hD, hname⟩, hrun⟩

theorem Sound.findInDir (hg : env.geom.Valid) (hfuel : 2 ≤ env.fuel) (h : Sound env.geom d)
    {D : Nat} (hD : IsDir env.geom d D) (site : Site) (name : Name) :
    findInDir site D name env (clean d) =
      .ret ((lookup env.geom d D name).map (Visit.found (dirBase env.geom D)), clean d) :=
  findInDir_clean site (h.scannable hg hD).flat hfuel (h.scannable hg hD).flagFree name

theorem lookup_mem {D : Nat} {name : Name} {v : Visit} (h : lookup g d D name = some v) :
    v ∈ entries g d D ∧ v.Matches name :=
  ⟨List.mem_of_find?_eq_some h, by simpa using List.find?_some h⟩

/-- Dot entries are directories. -/
theorem Sound.dot_isDirectory (h : Sound g d) {D : Nat} {v : Visit} (hD : IsDir g d D)
    (hv : v ∈ entries g d D) (hdot : v.entry.IsDot) : v.entry.isDirectory = true := by
  by_cases h₀ : D = 0
  · subst h₀
    exact absurd hdot (h.root_dots v hv)
  · obtain ⟨P, u, hu, hudir, rfl⟩ := Sound.parent hD h₀
    exact (h.dots P u v hu hudir hv hdot).isDirectory

theorem Sound.live_file (h : Sound g d) {D : Nat} {v : Visit} (hD : IsDir g d D)
    (hv : v ∈ entries g d D) (hfile : v.entry.isDirectory = false) : LiveEntry g d D v := by
  refine ⟨hD, hv, fun hdot => ?_⟩
  rw [h.dot_isDirectory hD hv hdot] at hfile
  cases hfile

/-! ## Deleting a file -/

/-- The disk after the entry of a file has been removed and its chain freed. -/
def deleted (g : Geometry) (d : Disk) (D : Nat) (v : Visit) (cs : List Nat) : Disk :=
  putRecord (clearAll g d cs) (dirBase g D) v.pos (setByte v.entry 0 0xE5)

theorem slotAt_clearAll (hg : g.Valid) {cs : List Nat} (hcs : ∀ c ∈ cs, g.IsCluster c) (D p : Nat) :
    slotAt (clearAll g d cs) (dirBase g D) p = slotAt d (dirBase g D) p := by
  unfold slotAt
  rw [clearAll_of_le hg hcs ((g.rootDirSector_le_dirBase D).trans (Nat.le_add_right _ _))]

theorem deleteFile_cases (hg : env.geom.Valid) (hfuel : 2 ≤ env.fuel) (h : Sound env.geom d)
    {path : List UInt8} (hrun : deleteFile path env (clean d) = .ret (code, io')) :
    (code < 0 ∧ io' = clean d) ∨
    (code = eok ∧ ∃ D name v cs, Resolves env d path D name ∧
      lookup env.geom d D name = some v ∧ v.entry.isDirectory = false ∧
      LiveEntry env.geom d D v ∧ Owns env.geom d v.entry.startingCluster cs ∧
      io' = clean (deleted env.geom d D v cs)) := by
  rcases resolve_cases hg hfuel h (fun e => rfl) hrun with herr | ⟨D, name, hres, hrun⟩
  · exact Or.inl herr
  · simp only [Fs.bind_apply, h.findInDir hg hfuel hres.isDir, Exec.ret_bind] at hrun
    cases hl : lookup env.geom d D name with
    | none =>
        simp only [hl, Option.map_none, Fs.pure_apply, Exec.ret.injEq, Prod.mk.injEq] at hrun
        rw [← hrun.1, ← hrun.2]
        exact Or.inl ⟨by decide, rfl⟩
    | some v =>
        have hv := (lookup_mem hl).1
        simp only [hl, Option.map_some] at hrun
        by_cases hdir : v.entry.isDirectory = true
        · have hdir' : (Visit.found (dirBase env.geom D) v).entry.isDirectory = true := hdir
          simp only [hdir', if_true, Fs.pure_apply, Exec.ret.injEq, Prod.mk.injEq] at hrun
          rw [← hrun.1, ← hrun.2]
          exact Or.inl ⟨by decide, rfl⟩
        · have hfile : v.entry.isDirectory = false := by simpa using hdir
          have hlive := h.live_file hres.isDir hv hfile
          obtain ⟨cs, hcs, -⟩ := h.chain D v hlive
          have hdir' : (Visit.found (dirBase env.geom D) v).entry.isDirectory = false := hfile
          have hstart : (Visit.found (dirBase env.geom D) v).entry.startingCluster =
            v.entry.startingCluster := rfl
          simp only [hdir', Bool.false_eq_true, if_false, hstart, Fs.bind_apply,
            when_freeChain_clean hg hcs, Exec.ret_bind, markDeleted_clean, Exec.ret.injEq,
            Prod.mk.injEq, slotAt_clearAll hg hcs.isCluster, slotAt_entry hv] at hrun
          exact Or.inr ⟨hrun.1.symm, D, name, v, cs, hres, hl, hfile, hlive, hcs, hrun.2.symm⟩

theorem tombstone_clipped {r : Record} (h : r.Clipped) : Record.Clipped (setByte r 0 0xE5) := by
  intro k hk
  rw [setByte, if_neg (by omega), h k hk]

theorem tombstone_flagFree {r : Record} (h : r.IsEntry) : FlagFree (setByte r 0 0xE5) := by
  intro hlfn
  have : Record.attributes (setByte r 0 0xE5) = r.attributes := by
    rw [Record.attributes, setByte, if_neg (by decide), Record.attributes]
  rw [this] at hlfn
  exact absurd hlfn h.not_lfn

theorem entry_isEntry {D : Nat} {v : Visit} (h : v ∈ entries g d D) : v.entry.IsEntry := by
  obtain ⟨xs, ys, -, -, -, he, -⟩ := entries_split h
  exact he

/-- A deletion gives the clusters of the file back and takes its entry away. -/
theorem deleted_sound (hg : g.Valid) (h : Sound g d) {D : Nat} {v : Visit} {cs : List Nat}
    (hv : LiveEntry g d D v) (hfile : v.entry.isDirectory = false)
    (hcs : Owns g d v.entry.startingCluster cs) :
    Sound g (deleted g d D v cs) ∧
      ∀ c, Owned g (deleted g d D v cs) c ↔ Owned g d c ∧ c ∉ cs := by
  obtain ⟨vs, ts, hbefore, -, htomb⟩ := entries_putRecord hv.mem
  have hclip := tombstone_clipped (clipped_entry hv.mem)
  have houtside : ∀ lba, ¬ DirSector g D lba →
      putRecord d (dirBase g D) v.pos (setByte v.entry 0 0xE5) lba = d lba :=
    fun lba hlba => putRecord_of_ne (pos_lt_slots hv.mem) hlba
  -- first the entry goes, then its clusters, which nobody owns any more
  obtain ⟨h₁, ho₁⟩ := h.fileChange hv.isDir (some v) none cs []
    (fun c hc => fat_of_outside hg houtside hc)
    (fun D' hD' hne => records_of_ne (h.dirNumber hv.isDir) (h.dirNumber hD') hne houtside)
    hbefore (htomb _ hclip (if_pos rfl))
    (flagFree_putRecord (h.flagFree D hv.isDir) hclip (tombstone_flagFree (entry_isEntry hv.mem)))
    (zeroTail_putRecord hv.mem (h.zeroTail D hv.isDir) hclip (by rw [setByte, if_pos rfl]; decide))
    (by rintro w ⟨⟩; exact ⟨hfile, hv.not_dot, hcs⟩) (by simp) (by simp) (by simp)
  obtain ⟨h₂, ho₂⟩ := h₁.clearAll hg hcs.isCluster fun c hc ho => by
    rcases (ho₁ c).1 ho with hno | hno
    · exact hno.2 hc
    · simp at hno
  rw [clearAll_putRecord hg hcs.isCluster] at h₂ ho₂
  exact ⟨h₂, fun c => by rw [deleted, ho₂ c, ho₁ c]; simp⟩

/-- A deletion clears the FAT entries of the chain. -/
theorem fat_deleted (hg : g.Valid) {D : Nat} {v : Visit} (hv : LiveEntry g d D v) {cs : List Nat}
    (hcs : ∀ c ∈ cs, g.IsCluster c) {c : Nat} (hc : g.IsCluster c) :
    fat g (deleted g d D v cs) c = if c ∈ cs then 0 else fat g d c := by
  rw [deleted, fat_of_outside hg (fun lba hlba => putRecord_of_ne (pos_lt_slots hv.mem) hlba) hc,
    fat_clearAll hg hcs (IsCluster.lt_fat hg hc)]

/-! ## Creating a file -/

theorem createFile_cases (hg : env.geom.Valid) (hfuel : 2 ≤ env.fuel) (h : Sound env.geom d)
    {path : List UInt8} (hrun : createFile path env (clean d) = .ret (code, io')) :
    (code < 0 ∧ io' = clean d) ∨
    (code = eok ∧ ∃ D name d', Resolves env d path D name ∧
      lookup env.geom d D name = none ∧ Inserted env.geom d D name attrArchive 0 0 d' ∧
      io' = clean d') := by
  rcases resolve_cases hg hfuel h (fun e => rfl) hrun with herr | ⟨D, name, hres, hrun⟩
  · exact Or.inl herr
  · simp only [Fs.bind_apply, h.findInDir hg hfuel hres.isDir, Exec.ret_bind] at hrun
    cases hl : lookup env.geom d D name with
    | some v =>
        simp only [hl, Option.map_some, Fs.pure_apply, Exec.ret.injEq, Prod.mk.injEq] at hrun
        rw [← hrun.1, ← hrun.2]
        exact Or.inl ⟨by decide, rfl⟩
    | none =>
        simp only [hl, Option.map_none] at hrun
        rcases insertEntry_cases (h.scannable hg hres.isDir) hfuel hrun with
          ⟨rfl, hio, -⟩ | ⟨hcode, d', hio, hins⟩
        · exact Or.inl ⟨by decide, hio⟩
        · exact Or.inr ⟨hcode, D, name, d', hres, hl, hins, hio⟩

/-- A path of 7-bit characters. -/
def AsciiPath (path : List UInt8) : Prop := ∀ c ∈ cString path, c < 0x80

theorem below_of_all {l : List UInt8} (h : (l.all fun c => decide (c < 0x80)) = true) :
    ∀ c ∈ l, c < 0x80 := fun c hc => of_decide_eq_true (List.all_eq_true.1 h c hc)

theorem Component.ascii {path : List UInt8} (hpath : AsciiPath path) {name : Name}
    (h : Component (cString path) name) : Ascii name := by
  intro c hc
  have hmem := h.subset c hc
  exact ⟨fun h₀ => zero_not_mem_cString path (h₀ ▸ hmem), hpath c hmem⟩

/-- New entries are no dot entries. -/
theorem sfnRecord_not_dot {name : Name} (h : Ascii name) (attempt : Nat) {attributes : UInt8}
    {cluster size : Nat} :
    ¬ (sfnRecord (generateShortName name attempt) attributes cluster size).IsDot := by
  rintro ⟨h₀, -⟩
  rw [sfnRecord_of_lt (length_generateShortName name attempt) (by omega)] at h₀
  exact (head_generateShortName h attempt).2.2 h₀

theorem InsertSpec.outside' {D : Nat} {name : Name} {attributes : UInt8} {cluster size : Nat}
    {attempt p : Nat} {vs ts : List Visit}
    (h : InsertSpec g d D name attributes cluster size d' attempt p vs ts) {lba : Nat}
    (hlba : ¬ DirSector g D lba) : d' lba = d lba := by
  refine h.outside lba ?_
  unfold DirSector at hlba
  omega

/-- The entry of an empty file is added. -/
theorem Inserted.file_sound (hg : g.Valid) (h : Sound g d) {D : Nat} (hD : IsDir g d D)
    {name : Name} (hname : Ascii name) (hlen : name.length ≤ 255)
    (hins : Inserted g d D name attrArchive 0 0 d') :
    Sound g d' ∧ (∀ c, Owned g d' c ↔ Owned g d c) ∧
      ∀ c, g.IsCluster c → fat g d' c = fat g d c := by
  obtain ⟨attempt, p, vs, ts, hspec⟩ := hins.spec (h.zeroTail D hD) hname hlen (by decide)
    (by decide)
  have hfat : ∀ c, g.IsCluster c → fat g d' c = fat g d c := fun c hc =>
    fat_of_outside hg (fun lba hlba => hspec.outside' hlba) hc
  obtain ⟨h₁, ho₁⟩ := h.fileChange hD none (some _) [] [] hfat
    (fun D' hD' hne => records_of_ne (h.dirNumber hD) (h.dirNumber hD') hne
      fun lba hlba => hspec.outside' hlba)
    hspec.before hspec.after
    (hspec.flagFree (h.flagFree D hD)) hspec.zeroTail (by simp) (by simp)
    (by
      rintro w ⟨⟩
      refine ⟨?_, sfnRecord_not_dot hname attempt, ⟨Or.inl ⟨rfl, ?_⟩, by simp⟩, ?_, by simp⟩
      · rw [Record.isDirectory, attributes_sfnRecord]
        decide
      · exact startingCluster_sfnRecord (by omega)
      · have hpos := g.sectorsPerCluster_pos
        rw [chainLength, Record.isDirectory, attributes_sfnRecord, if_neg (by decide),
          fileSize_sfnRecord (by omega), Nat.div_eq_of_lt]
        · rfl
        · unfold Geometry.clusterBytes
          omega)
    (by simp)
  exact ⟨h₁, fun c => by rw [ho₁ c]; simp, hfat⟩

/-- A new file leaves the tree as it is. -/
theorem Inserted.file_isDir (h : Sound g d) {D : Nat} (hD : IsDir g d D) {name : Name}
    (hname : Ascii name) (hlen : name.length ≤ 255)
    (hins : Inserted g d D name attrArchive 0 0 d') (P : Nat) :
    IsDir g d' P ↔ IsDir g d P := by
  obtain ⟨attempt, p, vs, ts, hspec⟩ := hins.spec (h.zeroTail D hD) hname hlen (by decide)
    (by decide)
  have hbefore : entries g d D = vs ++ ((none : Option Visit).toList ++ ts) := hspec.before
  have hafter : entries g d' D = vs ++ ((some _ : Option Visit).toList ++ ts) := hspec.after
  refine isDir_fileChange (fun D' hD' hne => ?_) hbefore hafter (by simp) ?_ P
  · exact records_of_ne (h.dirNumber hD) (h.dirNumber hD') hne fun lba hlba => hspec.outside' hlba
  · rintro w ⟨⟩
    rw [Record.isDirectory, attributes_sfnRecord]
    decide

/-! ## Removing a directory -/

section EmptyCheck

variable {sec i count : Nat} {r : Record}

theorem emptyCheckCallback_end (h : r 0 = 0x00) :
    emptyCheckCallback sec i r count = (1, count) := if_pos h

theorem emptyCheckCallback_go (h₀ : r 0 ≠ 0x00) (h : r.IsEntry → r.IsDot) :
    emptyCheckCallback sec i r count = (0, count) := by
  unfold emptyCheckCallback
  rw [if_neg h₀]
  by_cases h₅ : r 0 = 0xE5
  · rw [if_pos h₅]
  · rw [if_neg h₅]
    split
    · rename_i ha
      exact if_pos (h ⟨fun hf => hf.elim h₀ h₅, ha.2, ha.1⟩)
    · rfl

theorem emptyCheckCallback_entry (h : r.IsEntry) (hdot : ¬ r.IsDot) :
    emptyCheckCallback sec i r count = (1, count + 1) := by
  unfold emptyCheckCallback
  rw [if_neg fun hf => h.not_free (Or.inl hf), if_neg fun hf => h.not_free (Or.inr hf),
    if_pos ⟨h.not_label, h.not_lfn⟩]
  exact if_neg hdot

end EmptyCheck

/-- The emptiness check counts an entry that is neither `.` nor `..`. -/
theorem emptyCheck_iff (base : Nat) (rs : List Record) : ∀ (p : Nat) (b : Nat → UInt8),
    (visitList emptyCheckCallback base rs p 0).2 = 0 ↔ ∀ w ∈ visits p b rs, w.entry.IsDot := by
  induction rs with
  | nil => intro p b; simp [visitList, visits]
  | cons r rs ih =>
      intro p b
      by_cases h₀ : r 0 = 0x00
      · rw [visitList_end (emptyCheckCallback_end h₀), visits_end h₀]
        simp
      · by_cases he : r.IsEntry
        · rw [visits_entry he, List.forall_mem_cons]
          by_cases hdot : r.IsDot
          · rw [visitList_go (emptyCheckCallback_go h₀ fun _ => hdot), ih (p + 1) emptyBuffer]
            simp [hdot]
          · rw [visitList_end (emptyCheckCallback_entry he hdot)]
            simp [hdot]
        · rw [visitList_go (emptyCheckCallback_go h₀ fun hc => absurd hc he), visits_skip h₀ he]
          exact ih (p + 1) _

theorem removeDirectory_cases (hg : env.geom.Valid) (hfuel : 2 ≤ env.fuel) (h : Sound env.geom d)
    {path : List UInt8} (hrun : removeDirectory path env (clean d) = .ret (code, io')) :
    (code < 0 ∧ io' = clean d) ∨
    (code = eok ∧ ∃ D name v, Resolves env d path D name ∧
      lookup env.geom d D name = some v ∧ v.entry.isDirectory = true ∧
      LiveEntry env.geom d D v ∧
      (∀ w ∈ entries env.geom d v.entry.startingCluster, w.entry.IsDot) ∧
      io' = clean (deleted env.geom d D v [v.entry.startingCluster])) := by
  rcases resolve_cases hg hfuel h (fun e => rfl) hrun with herr | ⟨D, name, hres, hrun⟩
  · exact Or.inl herr
  · simp only [Fs.bind_apply, h.findInDir hg hfuel hres.isDir, Exec.ret_bind] at hrun
    cases hl : lookup env.geom d D name with
    | none =>
        simp only [hl, Option.map_none, Fs.pure_apply, Exec.ret.injEq, Prod.mk.injEq] at hrun
        rw [← hrun.1, ← hrun.2]
        exact Or.inl ⟨by decide, rfl⟩
    | some v =>
        obtain ⟨hv, hmatch⟩ := lookup_mem hl
        have hstart : (Visit.found (dirBase env.geom D) v).entry.startingCluster =
          v.entry.startingCluster := rfl
        simp only [hl, Option.map_some] at hrun
        by_cases hdir : v.entry.isDirectory = true
        · have hsub := h.isDir_of_entry hres.isDir hv hdir
          have hdir' : (Visit.found (dirBase env.geom D) v).entry.isDirectory = true := hdir
          simp only [hdir', if_true, hstart, Fs.bind_apply,
            iterateDirectory_clean _ (h.scannable hg hsub).flat hfuel, Exec.ret_bind] at hrun
          by_cases hempty : (visitList emptyCheckCallback (dirBase env.geom v.entry.startingCluster)
              (records env.geom d v.entry.startingCluster) 0 0).2 = 0
          · have hall := (emptyCheck_iff _ _ 0 emptyBuffer).1 hempty
            -- `.` is never looked up, and the parent that `..` names is not empty
            have hdot : ¬ v.entry.IsDot := by
              intro hdot
              by_cases h₀ : D = 0
              · exact h.root_dots v (h₀ ▸ hv) hdot
              · obtain ⟨P, u, hu, hudir, rfl⟩ := Sound.parent hres.isDir h₀
                rcases (h.dots P u v hu hudir hv hdot).target with ⟨-, hname⟩ | ht
                · exact hres.component.ne_dot (hname name hmatch)
                · exact hu.not_dot (hall u (by rw [ht]; exact hu.mem))
            have hlive : LiveEntry env.geom d D v := ⟨hres.isDir, hv, hdot⟩
            have hcs := h.dirChain hlive hdir
            rw [hempty] at hrun
            simp only [lt_self_iff_false, if_false, Fs.bind_apply, freeChain_clean hg hcs,
              Exec.ret_bind, markDeleted_clean, Exec.ret.injEq, Prod.mk.injEq,
              slotAt_clearAll hg hcs.isCluster, slotAt_entry hv] at hrun
            exact Or.inr ⟨hrun.1.symm, D, name, v, hres, hl, hdir, hlive, hall, hrun.2.symm⟩
          · rw [if_pos (by omega)] at hrun
            simp only [Fs.pure_apply, Exec.ret.injEq, Prod.mk.injEq] at hrun
            rw [← hrun.1, ← hrun.2]
            exact Or.inl ⟨by decide, rfl⟩
        · have hfile : v.entry.isDirectory = false := by simpa using hdir
          have hdir' : (Visit.found (dirBase env.geom D) v).entry.isDirectory = false := hfile
          simp only [hdir', Bool.false_eq_true, if_false, Fs.pure_apply, Exec.ret.injEq,
            Prod.mk.injEq] at hrun
          rw [← hrun.1, ← hrun.2]
          exact Or.inl ⟨by decide, rfl⟩

/-- The removal of an empty directory gives its cluster back and takes its entry away. -/
theorem removed_sound (hg : g.Valid) (h : Sound g d) {D : Nat} {v : Visit}
    (hv : LiveEntry g d D v) (hdir : v.entry.isDirectory = true)
    (hempty : ∀ w ∈ entries g d v.entry.startingCluster, w.entry.IsDot) :
    Sound g (deleted g d D v [v.entry.startingCluster]) ∧
      ∀ c, Owned g (deleted g d D v [v.entry.startingCluster]) c ↔
        Owned g d c ∧ c ≠ v.entry.startingCluster := by
  obtain ⟨vs, ts, hbefore, -, htomb⟩ := entries_putRecord hv.mem
  have hcs := h.dirChain hv hdir
  have hclip := tombstone_clipped (clipped_entry hv.mem)
  have houtside : ∀ lba, ¬ DirSector g D lba →
      putRecord d (dirBase g D) v.pos (setByte v.entry 0 0xE5) lba = d lba :=
    fun lba hlba => putRecord_of_ne (pos_lt_slots hv.mem) hlba
  obtain ⟨h₁, ho₁, -⟩ := h.removeDirectory hv.isDir
    (fun c hc => fat_of_outside hg houtside hc)
    (fun D' hD' hne => records_of_ne (h.dirNumber hv.isDir) (h.dirNumber hD') hne houtside)
    hbefore (htomb _ hclip (if_pos rfl))
    (flagFree_putRecord (h.flagFree D hv.isDir) hclip (tombstone_flagFree (entry_isEntry hv.mem)))
    (zeroTail_putRecord hv.mem (h.zeroTail D hv.isDir) hclip (by rw [setByte, if_pos rfl]; decide))
    hdir hv.not_dot hempty
  obtain ⟨h₂, ho₂⟩ := h₁.clearAll hg hcs.isCluster fun c hc ho =>
    ((ho₁ c).1 ho).2 (List.mem_singleton.1 hc)
  rw [clearAll_putRecord hg hcs.isCluster] at h₂ ho₂
  exact ⟨h₂, fun c => (ho₂ c).trans (ho₁ c)⟩

/-! ## Making a directory -/

/-- The disk after the sectors of a new directory in cluster `c` have been written. -/
def newDirDisk (g : Geometry) (d : Disk) (c P : Nat) : Disk := fun lba =>
  if g.clusterLba c ≤ lba ∧ lba < g.clusterLba c + g.sectorsPerCluster then
    if lba = g.clusterLba c then newDirSector c P else fun _ => 0
  else d lba

theorem flushDirectory_clean : ∀ (n lba : Nat) (buf : Sector) (d : Disk),
    flushDirectory n lba buf env (clean d) = .ret (true, clean fun l =>
      if lba ≤ l ∧ l < lba + n then if l = lba then buf else fun _ => 0 else d l) := by
  intro n
  induction n with
  | zero =>
      intro lba buf d
      have : (fun l => if lba ≤ l ∧ l < lba + 0 then if l = lba then buf else fun _ => 0 else d l) =
          d := by
        funext l
        rw [if_neg (by omega)]
      rw [this]
      rfl
  | succ n ih =>
      intro lba buf d
      simp only [flushDirectory, Fs.bind_apply, ataWriteSector_clean, Exec.ret_bind, if_true, ih]
      congr 3
      funext l
      by_cases h₀ : l = lba
      · rw [if_neg (by omega), if_pos (by omega), if_pos h₀, h₀, Disk.set_self]
      · rw [Disk.set_of_ne h₀, if_neg h₀, ite_self]
        refine if_congr ?_ rfl rfl
        omega

theorem newDirDisk_of_ne {c P lba : Nat} (hc : 2 ≤ c) (h : ¬ DirSector g c lba) :
    newDirDisk g d c P lba = d lba := by
  refine if_neg fun hin => h ?_
  unfold DirSector dirBase dirSectors
  rwa [if_neg (by omega), if_neg (by omega)]

section DotRecord

variable {name : List UInt8} {n k : Nat}

theorem dotRecord_of_lt (hlen : name.length ≤ 11) (hk : k < 11) :
    dotRecord name n k = (padTo 11 name).getD k 0 := by
  rw [dotRecord, setU16_of_ne (by omega) (by omega), setByte, if_neg (by omega), patch,
    if_pos (by rw [length_padTo hlen]; omega), Nat.sub_zero]

theorem clipped_dotRecord (hlen : name.length ≤ 11) : Record.Clipped (dotRecord name n) := by
  intro k hk
  rw [dotRecord, setU16_of_ne (by omega) (by omega), setByte, if_neg (by omega),
    patch_of_not_mem (by rw [length_padTo hlen]; omega)]

theorem attributes_dotRecord : (dotRecord name n).attributes = attrDirectory := by
  rw [Record.attributes, dotRecord, setU16_of_ne (by omega) (by omega), setByte, if_pos rfl]

theorem isDirectory_dotRecord : (dotRecord name n).isDirectory = true := by
  rw [Record.isDirectory, attributes_dotRecord]
  decide

theorem startingCluster_dotRecord (hn : n < 65536) : (dotRecord name n).startingCluster = n := by
  rw [Record.startingCluster, dotRecord, u16_setU16_self, Nat.mod_eq_of_lt hn]

theorem isEntry_dotRecord (hlen : name.length ≤ 10) : (dotRecord (dot :: name) n).IsEntry := by
  have h₀ : dotRecord (dot :: name) n 0 = dot := by
    rw [dotRecord_of_lt (by simp only [List.length_cons]; omega) (by omega)]
    rfl
  refine ⟨?_, by rw [attributes_dotRecord]; decide, by rw [attributes_dotRecord]; decide⟩
  unfold Record.IsFree
  rw [h₀]
  decide

theorem isDot_dotRecord (hname : name = [] ∨ name = [dot]) :
    (dotRecord (dot :: name) n).IsDot := by
  have hget : ∀ k, k < 11 → dotRecord (dot :: name) n k = (padTo 11 (dot :: name)).getD k 0 :=
    fun k hk => dotRecord_of_lt (by rcases hname with rfl | rfl <;> decide) hk
  unfold Record.IsDot
  rw [hget 0 (by omega), hget 1 (by omega), hget 2 (by omega)]
  rcases hname with rfl | rfl <;> decide

/-- A dot entry is found by its name only. -/
theorem matchSfn_dotRecord (hlen : name.length ≤ 11) {m : Name} :
    matchSfn (dotRecord name n) m = true ↔
      SameName m (cString (dotted ((padTo 11 name).take 8) ((padTo 11 name).drop 8))) := by
  have hslice : ∀ i l, i + l ≤ 11 →
      slice (dotRecord name n) i l = ((padTo 11 name).drop i).take l := by
    intro i l hil
    have hpad := length_padTo hlen
    apply List.ext_getElem
    · simp [slice, hpad]
      omega
    · intro k hk hk'
      simp only [slice, List.length_map, List.length_range] at hk
      simp only [slice, List.getElem_map, List.getElem_range, List.getElem_take, List.getElem_drop]
      rw [dotRecord_of_lt hlen (by omega), List.getD_eq_getElem _ _ (by omega)]
  rw [matchSfn_iff, hslice 0 8 (by omega), hslice 8 3 (by omega), List.drop_zero,
    List.take_of_length_le (l := (padTo 11 name).drop 8)
      (by rw [List.length_drop, length_padTo hlen])]

end DotRecord

theorem sameName_dots {m name : Name} (h : SameName m name) (hname : ∀ c ∈ name, c = dot) :
    m = name := by
  have hlower : ∀ c : UInt8, lower c = dot → c = dot := by
    intro c hc
    unfold lower dot at *
    grind
  have hall : ∀ c ∈ m, c = dot := by
    intro c hc
    have hmem : lower c ∈ name.map lower := by
      rw [← show m.map lower = name.map lower from h]
      exact List.mem_map_of_mem hc
    obtain ⟨a, ha, heq⟩ := List.mem_map.1 hmem
    rw [hname a ha] at heq
    exact hlower c (heq.symm.trans (by decide))
  have hlen : m.length = name.length := by simpa using congrArg List.length h
  rw [List.eq_replicate_iff.2 ⟨rfl, hall⟩, List.eq_replicate_iff.2 ⟨rfl, hname⟩, hlen]

/-- Every record of a new directory behind `.` and `..` ends the scan. -/
theorem records_newDirDisk {c P : Nat} (hc : 2 ≤ c) :
    ∃ zs, records g (newDirDisk g d c P) c =
        dotRecord [dot] c :: dotRecord [dot, dot] P :: zs ∧ ∀ r ∈ zs, r = fun _ => 0 := by
  have hbase : dirBase g c = g.clusterLba c := if_neg (by omega)
  have hsec : dirSectors g c = g.sectorsPerCluster := if_neg (by omega)
  have hpos := g.sectorsPerCluster_pos
  have hslot : ∀ p, p < 16 * g.sectorsPerCluster →
      slotAt (newDirDisk g d c P) (g.clusterLba c) p =
        if p = 0 then dotRecord [dot] c else if p = 1 then dotRecord [dot, dot] P else fun _ => 0 := by
    intro p hp
    have hzero : ∀ i, recordAt (fun _ => 0) i = fun _ => 0 := by
      intro i
      funext k
      unfold recordAt
      split <;> rfl
    unfold slotAt newDirDisk
    rw [if_pos ⟨by omega, by omega⟩]
    by_cases hfirst : p / 16 = 0
    · rw [if_pos (by omega)]
      unfold newDirSector
      by_cases h₁ : p = 1
      · rw [if_neg (by omega), if_pos h₁, h₁, recordAt_setRecord_self (clipped_dotRecord (by decide))]
      · rw [recordAt_setRecord_of_ne (by omega)]
        by_cases h₀ : p = 0
        · rw [if_pos h₀, h₀, recordAt_setRecord_self (clipped_dotRecord (by decide))]
        · rw [recordAt_setRecord_of_ne (by omega), if_neg h₀, if_neg h₁, hzero]
    · rw [if_neg (by omega), if_neg (by omega), if_neg (by omega), hzero]
  obtain ⟨n, hn⟩ : ∃ n, 16 * g.sectorsPerCluster = n + 1 + 1 := ⟨16 * g.sectorsPerCluster - 2, by omega⟩
  refine ⟨slots (newDirDisk g d c P) (g.clusterLba c) 2 n, ?_, ?_⟩
  · rw [records, hbase, hsec, hn, slots_succ, slots_succ, hslot 0 (by omega), hslot 1 (by omega)]
    rfl
  · intro r hr
    obtain ⟨p, hp, rfl⟩ := List.mem_map.1 hr
    have hp' := List.mem_range'_1.1 hp
    rw [hslot p (by omega), if_neg (by omega), if_neg (by omega)]

/-- The entries of a new directory. -/
theorem entries_newDirDisk {c P : Nat} (hc : 2 ≤ c) :
    entries g (newDirDisk g d c P) c =
      [⟨0, emptyBuffer, dotRecord [dot] c⟩, ⟨1, emptyBuffer, dotRecord [dot, dot] P⟩] := by
  obtain ⟨zs, hrs, hzs⟩ := records_newDirDisk (g := g) (d := d) (P := P) hc
  rw [entries, hrs, visits_entry (isEntry_dotRecord (by decide)),
    visits_entry (isEntry_dotRecord (by decide)), visits_zero fun r hr => by rw [hzs r hr]]

theorem flagFree_newDirDisk {c P : Nat} (hc : 2 ≤ c) :
    ∀ r ∈ records g (newDirDisk g d c P) c, FlagFree r := by
  obtain ⟨zs, hrs, hzs⟩ := records_newDirDisk (g := g) (d := d) (P := P) hc
  have hdot : ∀ name n, FlagFree (dotRecord name n) := fun name n hl =>
    absurd (attributes_dotRecord.symm.trans hl) (by decide)
  rw [hrs]
  intro r hr
  rcases List.mem_cons.1 hr with rfl | hr
  · exact hdot _ _
  · rcases List.mem_cons.1 hr with rfl | hr
    · exact hdot _ _
    · rw [hzs r hr]
      exact fun hl => absurd hl (by decide)

theorem zeroTail_newDirDisk {c P : Nat} (hc : 2 ≤ c) :
    ZeroTail (records g (newDirDisk g d c P) c) := by
  obtain ⟨zs, hrs, hzs⟩ := records_newDirDisk (g := g) (d := d) (P := P) hc
  rw [hrs]
  refine List.pairwise_cons.2 ⟨fun r _ h₀ => ?_, List.pairwise_cons.2 ⟨fun r _ h₀ => ?_, ?_⟩⟩
  · exact absurd (Or.inl h₀) (isEntry_dotRecord (by decide)).not_free
  · exact absurd (Or.inl h₀) (isEntry_dotRecord (by decide)).not_free
  · exact List.pairwise_of_forall_mem_list fun r _ r' hr' _ => by rw [hzs r' hr']

theorem dotEntry_newDirDisk {c P : Nat} (hc : 2 ≤ c) (hc' : c < 65536) (hP : P < 65536) :
    ∀ w ∈ entries g (newDirDisk g d c P) c, w.entry.IsDot ∧ DotEntry P c w := by
  intro w hw
  rw [entries_newDirDisk hc] at hw
  rcases List.mem_cons.1 hw with rfl | hw
  · refine ⟨isDot_dotRecord (Or.inl rfl), isDirectory_dotRecord,
      Or.inl ⟨startingCluster_dotRecord hc', fun n hn => ?_⟩⟩
    rcases hn with ⟨hbuf, -⟩ | hn
    · exact absurd rfl hbuf
    · have hdots : cString (dotted ((padTo 11 [dot]).take 8) ((padTo 11 [dot]).drop 8)) = [dot] := by
        decide
      have hsame := (matchSfn_dotRecord (by decide)).1 hn
      rw [hdots] at hsame
      exact sameName_dots hsame (by simp)
  · rw [List.mem_singleton.1 hw]
    exact ⟨isDot_dotRecord (Or.inr rfl), isDirectory_dotRecord,
      Or.inr (startingCluster_dotRecord hP)⟩

/-- Numbers of directories fit the 16-bit fields that hold them. -/
theorem Sound.dir_lt (hg : g.Valid) (h : Sound g d) {D : Nat} (hD : IsDir g d D) : D < 65536 := by
  rcases h.dirNumber hD with rfl | h2
  · omega
  · have := IsCluster.lt_reserved hg (h.isCluster hD (by omega)).1
    omega

theorem LeastFree.not_owned {c : Nat} (h : LeastFree g d c) : ¬ Owned g d c :=
  fun ho => ho.fat_ne_zero h.free

/-- The disk of a directory that has been made but has no entry yet. -/
def prepared (g : Geometry) (d : Disk) (c P : Nat) : Disk := newDirDisk g (setFat g d c 0xFFFF) c P

theorem prepared_of_ne {c P lba : Nat} (hc : 2 ≤ c) (h : ¬ DirSector g c lba) :
    prepared g d c P lba = setFat g d c 0xFFFF lba := newDirDisk_of_ne hc h

theorem fat_prepared (hg : g.Valid) {c P : Nat} (hc : g.IsCluster c) {a : Nat}
    (ha : g.IsCluster a) :
    fat g (prepared g d c P) a = if a = c then 0xFFFF else fat g d a := by
  rw [fat_of_outside hg (fun lba hlba => prepared_of_ne hc.1 hlba) ha,
    fat_setFat hg (IsCluster.lt_fat hg hc) (IsCluster.lt_fat hg ha) (by omega)]

/-- What has been prepared for a new directory. -/
structure Prepared (g : Geometry) (d d' : Disk) (c : Nat) : Prop where
  sound : Sound g d'
  owned : ∀ a, Owned g d' a ↔ Owned g d a
  isDir : ∀ D, IsDir g d D → IsDir g d' D
  records_eq : ∀ D, IsDir g d D → records g d' D = records g d D
  fat_eq : ∀ a, g.IsCluster a → fat g d' a = if a = c then 0xFFFF else fat g d a
  outside : ∀ lba, g.rootDirSector ≤ lba → ¬ DirSector g c lba → d' lba = d lba

theorem prepared_spec (hg : g.Valid) (h : Sound g d) {c P : Nat} (hc : LeastFree g d c) :
    Prepared g d (prepared g d c P) c := by
  have hcf := IsCluster.lt_fat hg hc.isCluster
  obtain ⟨h₁, ho₁⟩ := h.setFat hg (v := 0xFFFF) hc.isCluster hc.not_owned (by omega)
  have hout : ∀ lba, ¬ DirSector g c lba →
      prepared g d c P lba = setFat g d c 0xFFFF lba :=
    fun lba hlba => prepared_of_ne hc.isCluster.1 hlba
  have hrec₁ : ∀ D, records g (setFat g d c 0xFFFF) D = records g d D := fun D =>
    records_congr fun lba hlba =>
      setFat_of_le hcf ((g.rootDirSector_le_dirBase D).trans hlba.1)
  have hfat : ∀ a, g.IsCluster a →
      fat g (prepared g d c P) a = fat g (setFat g d c 0xFFFF) a :=
    fun a ha => fat_of_outside hg hout ha
  have hrec : ∀ D, IsDir g (setFat g d c 0xFFFF) D →
      records g (prepared g d c P) D = records g (setFat g d c 0xFFFF) D := by
    intro D hD
    refine records_of_ne (Or.inr hc.isCluster.1) (h₁.dirNumber hD) ?_ hout
    rintro rfl
    have h₂ := hc.isCluster.1
    exact hc.not_owned ((ho₁ D).1 (h₁.owned_dir hD (by omega)))
  obtain ⟨h₂, ho₂⟩ := h₁.frame hrec fun a ha => hfat a ha.isCluster
  have hdir₁ : ∀ D, IsDir g (setFat g d c 0xFFFF) D ↔ IsDir g d D := fun D =>
    isDir_iff_of_sub fun D _ a => by unfold Sub; rw [entries_congr (hrec₁ D)]
  have hdir : ∀ D, IsDir g (prepared g d c P) D ↔ IsDir g d D := by
    intro D
    rw [← hdir₁]
    exact isDir_iff_of_sub fun D hD a => by unfold Sub; rw [entries_congr (hrec D hD)]
  refine ⟨h₂, fun a => (ho₂ a).trans (ho₁ a), fun D hD => (hdir D).2 hD, fun D hD => ?_,
    fun a ha => ?_, fun lba hle hlba => ?_⟩
  · rw [hrec D ((hdir₁ D).2 hD), hrec₁]
  · exact fat_prepared hg hc.isCluster ha
  · rw [hout lba hlba, setFat_of_le hcf hle]

/-- A returning `fat16_make_directory` has added a directory, or it has written nothing,
or it has found no room in the parent directory after the cluster had been taken. -/
theorem makeDirectory_cases (hg : env.geom.Valid) (hfuel : 2 ≤ env.fuel) (h : Sound env.geom d)
    {path : List UInt8} (hrun : makeDirectory path env (clean d) = .ret (code, io')) :
    (code < 0 ∧ io' = clean d) ∨
    ∃ D name c, Resolves env d path D name ∧ lookup env.geom d D name = none ∧
      LeastFree env.geom d c ∧
      ((code = -enospc ∧ ¬ HasRoom (records env.geom d D) (lfnCount name + 1) ∧
          io' = clean (prepared env.geom d c D)) ∨
        (code = eok ∧ ∃ d', io' = clean d' ∧
          Inserted env.geom (prepared env.geom d c D) D name attrDirectory c 0 d')) := by
  rcases resolve_cases hg hfuel h (fun e => rfl) hrun with herr | ⟨D, name, hres, hrun⟩
  · exact Or.inl herr
  · simp only [Fs.bind_apply, h.findInDir hg hfuel hres.isDir, Exec.ret_bind] at hrun
    cases hl : lookup env.geom d D name with
    | some v =>
        simp only [hl, Option.map_some, Fs.pure_apply, Exec.ret.injEq, Prod.mk.injEq] at hrun
        rw [← hrun.1, ← hrun.2]
        exact Or.inl ⟨by decide, rfl⟩
    | none =>
        simp only [hl, Option.map_none, Fs.bind_apply, Fs.geometry_apply, Exec.ret_bind] at hrun
        rcases allocCluster_clean hg d with ⟨c, hc, halloc⟩ | ⟨-, halloc⟩
        · have hc₀ : c ≠ 0 := by have := hc.isCluster.1; omega
          simp only [halloc, Exec.ret_bind, if_neg hc₀, Fs.bind_apply, flushDirectory_clean,
            if_true] at hrun
          have hprep := prepared_spec (P := D) hg h hc
          have hrun' : insertEntry D name attrDirectory c 0 env
            (clean (prepared env.geom d c D)) = .ret (code, io') := hrun
          refine Or.inr ⟨D, name, c, hres, hl, hc, ?_⟩
          rcases insertEntry_cases (hprep.sound.scannable hg (hprep.isDir D hres.isDir)) hfuel hrun'
            with ⟨hcode, hio, hroom⟩ | ⟨hcode, d', hio, hins⟩
          · rw [hprep.records_eq D hres.isDir] at hroom
            exact Or.inl ⟨hcode, hroom, hio⟩
          · exact Or.inr ⟨hcode, d', hio, hins⟩
        · simp only [halloc, Exec.ret_bind, if_true, Fs.pure_apply, Exec.ret.injEq,
            Prod.mk.injEq] at hrun
          rw [← hrun.1, ← hrun.2]
          exact Or.inl ⟨by decide, rfl⟩

/-- The entry of a prepared directory is added. -/
theorem Inserted.directory_sound (hg : g.Valid) (h : Sound g d) {D c : Nat} (hD : IsDir g d D)
    (hc : LeastFree g d c) {name : Name} (hname : Ascii name) (hlen : name.length ≤ 255)
    (hins : Inserted g (prepared g d c D) D name attrDirectory c 0 d') :
    Sound g d' ∧ (∀ a, Owned g d' a ↔ Owned g d a ∨ a = c) ∧
      ∀ a, g.IsCluster a → fat g d' a = if a = c then 0xFFFF else fat g d a := by
  have hprep := prepared_spec (P := D) hg h hc
  have hD' := hprep.isDir D hD
  have hc2 := hc.isCluster.1
  have hc16 := IsCluster.lt_reserved hg hc.isCluster
  obtain ⟨attempt, p, vs, ts, hspec⟩ := hins.spec (hprep.sound.zeroTail D hD') hname hlen
    (by decide) (by decide)
  have hstart : (sfnRecord (generateShortName name attempt) attrDirectory c 0).startingCluster = c :=
    startingCluster_sfnRecord (by omega)
  have hout : ∀ lba, ¬ DirSector g D lba → d' lba = prepared g d c D lba :=
    fun lba hlba => hspec.outside' hlba
  have hfat : ∀ a, g.IsCluster a → fat g d' a = fat g (prepared g d c D) a :=
    fun a ha => fat_of_outside hg hout ha
  have hcD : c ≠ D := by
    rintro rfl
    exact hc.not_owned (h.owned_dir hD (by omega))
  -- the new directory itself is not touched by the insertion
  have hnew : records g d' c = records g (prepared g d c D) c :=
    records_of_ne (h.dirNumber hD) (Or.inr hc2) hcD hout
  have hown : Owns g (prepared g d c D) c [c] := by
    refine ⟨Or.inr ⟨by simp, rfl, IsCluster.not_eof hg hc.isCluster, ?_⟩, ?_⟩
    · rw [hprep.fat_eq c hc.isCluster, if_pos rfl]
      exact (by decide : 0xFFF8 ≤ 0xFFFF)
    · intro a ha
      rw [List.mem_singleton.1 ha]
      exact hc.isCluster
  obtain ⟨h₁, ho₁, -⟩ := hprep.sound.addDirectory hD' hfat
    (fun D' hD₁ hne => records_of_ne (h.dirNumber hD) (hprep.sound.dirNumber hD₁) hne hout)
    hspec.before hspec.after (hspec.flagFree (hprep.sound.flagFree D hD')) hspec.zeroTail
    (by rw [Record.isDirectory, attributes_sfnRecord]; decide) (sfnRecord_not_dot hname attempt)
    (by rw [hstart]; exact hown)
    (by rw [hstart]; exact fun ho => hc.not_owned ((hprep.owned c).1 ho))
    (by rw [hstart, hnew]; exact flagFree_newDirDisk hc2)
    (by rw [hstart, hnew]; exact zeroTail_newDirDisk hc2)
    (by rw [hstart, entries_congr hnew]; exact dotEntry_newDirDisk hc2 (by omega) (h.dir_lt hg hD))
  refine ⟨h₁, fun a => ?_, fun a ha => ?_⟩
  · rw [ho₁ a, hprep.owned a, hstart]
  · rw [hfat a ha, hprep.fat_eq a ha]

end Fat16

end BenmoshOS
