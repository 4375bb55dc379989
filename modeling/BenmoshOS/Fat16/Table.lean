import BenmoshOS.Fat16.Driver
import BenmoshOS.Lib.Chain

/-!
# FAT16: the file allocation table as an array

While no access fails, `fat16_read_fat_entry` and `fat16_write_fat_entry` read and
write an array: `fat g d c` is entry `c` of the first copy, `setFat g d c v` the disk
after an entry has been written to every copy.  Allocation takes the least free
cluster, and freeing a chain clears exactly its entries.
-/

namespace BenmoshOS

namespace Fat16

/-- Entry `c` of the first FAT copy. -/
def fat (g : Geometry) (d : Disk) (c : Nat) : Nat :=
  u16 (d (g.fatStartSector + c * 2 / 512)) (c * 2 % 512)

/-- Entry `c` of FAT copy `i`. -/
def fatCopy (g : Geometry) (d : Disk) (i c : Nat) : Nat :=
  u16 (d (g.fatStartSector + i * g.sectorsPerFat + c * 2 / 512)) (c * 2 % 512)

/-- The disk after `fat16_write_fat_entry(c, v)`: every copy of the sector becomes the
changed sector of the first one. -/
def setFat (g : Geometry) (d : Disk) (c v : Nat) : Disk := fun lba =>
  if ∃ i, i < g.fatCount ∧ lba = g.fatStartSector + i * g.sectorsPerFat + c * 2 / 512 then
    setU16 (d (g.fatStartSector + c * 2 / 512)) (c * 2 % 512) v
  else d lba

/-- The geometry the driver is meant for: there is a FAT, it has an entry for every
cluster, and no cluster number is one of the reserved values. -/
structure Geometry.Valid (g : Geometry) : Prop where
  fatCount_pos : 0 < g.fatCount
  clusters_le_fat : g.totalClusters + 2 ≤ 256 * g.sectorsPerFat
  clusters_le : g.totalClusters + 2 ≤ 0xFFF0

/-- `c` is a data cluster of the volume. -/
def Geometry.IsCluster (g : Geometry) (c : Nat) : Prop := 2 ≤ c ∧ c < g.totalClusters + 2

/-- The value marks the end of a chain. -/
def Eof (v : Nat) : Prop := 0xFFF8 ≤ v

variable {env : Env} {g : Geometry} {d : Disk} {c v : Nat}

/-! ## Reading and writing entries -/

@[simp] theorem readFatEntry_clean (site : Site) (c : Nat) :
    readFatEntry site c env (clean d) = .ret (fat env.geom d c, clean d) := rfl

theorem mirrorFat_clean (sectorOffset : Nat) (buffer : Sector) (n i : Nat) (d : Disk) :
    mirrorFat sectorOffset buffer n i env (clean d) =
      .ret (eok, clean fun lba =>
        if ∃ k, k < n ∧ lba = env.geom.fatStartSector + (i + k) * env.geom.sectorsPerFat +
          sectorOffset then buffer else d lba) := by
  induction n generalizing i d with
  | zero => simp [mirrorFat]
  | succ n ih =>
      simp only [mirrorFat, Fs.bind_apply, Fs.geometry_apply, Exec.ret_bind,
        ataWriteSector_clean, if_true, ih]
      congr 3
      funext lba
      -- copy `i` is the first of the copies `i, …, i + n`
      by_cases h₀ : lba = env.geom.fatStartSector + i * env.geom.sectorsPerFat + sectorOffset
      · have hlast : ∃ k, k < n + 1 ∧ lba = env.geom.fatStartSector +
            (i + k) * env.geom.sectorsPerFat + sectorOffset := ⟨0, by omega, h₀⟩
        rw [if_pos hlast, h₀, Disk.set_self, ite_self]
      · rw [Disk.set_of_ne h₀]
        refine if_congr ?_ rfl rfl
        constructor
        · rintro ⟨k, hk, rfl⟩
          exact ⟨k + 1, by omega, by rw [Nat.add_right_comm i 1 k, Nat.add_assoc i k 1]⟩
        · rintro ⟨k, hk, rfl⟩
          cases k with
          | zero => exact absurd (by simp) h₀
          | succ k => exact ⟨k, by omega, by rw [Nat.add_right_comm i 1 k, Nat.add_assoc i k 1]⟩

@[simp] theorem writeFatEntry_clean (c v : Nat) :
    writeFatEntry c v env (clean d) = .ret (eok, clean (setFat env.geom d c v)) := by
  simp only [writeFatEntry, Fs.bind_apply, Fs.geometry_apply, Exec.ret_bind, ataReadSector_clean,
    mirrorFat_clean, Nat.zero_add]
  rfl

/-- A write to the FAT changes no sector behind the FAT copies. -/
theorem setFat_of_le (hc : c < 256 * g.sectorsPerFat) {lba : Nat} (h : g.rootDirSector ≤ lba) :
    setFat g d c v lba = d lba := by
  refine if_neg ?_
  rintro ⟨i, hi, rfl⟩
  have hmul : (i + 1) * g.sectorsPerFat ≤ g.fatCount * g.sectorsPerFat :=
    Nat.mul_le_mul_right _ hi
  rw [g.rootDirSector_eq] at h
  rw [Nat.succ_mul] at hmul
  omega

theorem fat_eq_fatCopy (c : Nat) : fat g d c = fatCopy g d 0 c := by
  rw [fatCopy, Nat.zero_mul, Nat.add_zero]
  rfl

/-- The copies of the FAT have no sector in common. -/
theorem copySector_inj {i k s t : Nat} (hs : s < g.sectorsPerFat) (ht : t < g.sectorsPerFat)
    (h : g.fatStartSector + i * g.sectorsPerFat + s = g.fatStartSector + k * g.sectorsPerFat + t) :
    i = k ∧ s = t := by
  have heq : s + g.sectorsPerFat * i = t + g.sectorsPerFat * k := by
    rw [Nat.mul_comm _ i, Nat.mul_comm _ k]
    omega
  have hdiv := congrArg (· / g.sectorsPerFat) heq
  have hmod := congrArg (· % g.sectorsPerFat) heq
  simp only [Nat.add_mul_div_left _ _ (Nat.zero_lt_of_lt hs), Nat.div_eq_of_lt hs,
    Nat.div_eq_of_lt ht, Nat.zero_add] at hdiv
  simp only [Nat.add_mul_mod_self_left, Nat.mod_eq_of_lt hs, Nat.mod_eq_of_lt ht] at hmod
  exact ⟨hdiv, hmod⟩

/-- A write to the FAT makes the sector of every copy that of the first one, with the new
value in it. -/
theorem setFat_copy {i s : Nat} (hi : i < g.fatCount) (hc : c < 256 * g.sectorsPerFat)
    (hs : s < g.sectorsPerFat) :
    setFat g d c v (g.fatStartSector + i * g.sectorsPerFat + s) =
      if s = c * 2 / 512 then setU16 (d (g.fatStartSector + c * 2 / 512)) (c * 2 % 512) v
      else d (g.fatStartSector + i * g.sectorsPerFat + s) := by
  by_cases hsec : s = c * 2 / 512
  · rw [if_pos hsec, hsec]
    exact if_pos ⟨i, hi, rfl⟩
  · rw [if_neg hsec]
    apply if_neg
    rintro ⟨k, -, heq⟩
    exact hsec (copySector_inj hs (by omega) heq).2

theorem fatCopy_setFat {i c' : Nat} (hi : i < g.fatCount) (hc : c < 256 * g.sectorsPerFat)
    (hc' : c' < 256 * g.sectorsPerFat) (hv : v < 65536) :
    fatCopy g (setFat g d c v) i c' =
      if c' = c then v else if c' * 2 / 512 = c * 2 / 512 then fat g d c' else fatCopy g d i c' := by
  unfold fatCopy
  rw [setFat_copy hi hc (by omega)]
  by_cases hsec : c' * 2 / 512 = c * 2 / 512
  · rw [if_pos hsec, if_pos hsec]
    by_cases heq : c' = c
    · rw [if_pos heq, heq, u16_setU16_self, Nat.mod_eq_of_lt hv]
    · rw [if_neg heq, u16_setU16_of_ne (by omega), fat, hsec]
  · rw [if_neg hsec, if_neg hsec, if_neg (by rintro rfl; exact hsec rfl)]

theorem fat_setFat_of_pos (hcopies : 0 < g.fatCount) {c' : Nat} (hc : c < 256 * g.sectorsPerFat)
    (hc' : c' < 256 * g.sectorsPerFat) (hv : v < 65536) :
    fat g (setFat g d c v) c' = if c' = c then v else fat g d c' := by
  rw [fat_eq_fatCopy, fatCopy_setFat hcopies hc hc' hv, ← fat_eq_fatCopy, ite_self]

/-- **The FAT is an array.** -/
theorem fat_setFat (hg : g.Valid) {c' : Nat} (hc : c < 256 * g.sectorsPerFat)
    (hc' : c' < 256 * g.sectorsPerFat) (hv : v < 65536) :
    fat g (setFat g d c v) c' = if c' = c then v else fat g d c' :=
  fat_setFat_of_pos hg.fatCount_pos hc hc' hv

/-- An entry of the first copy keeps its value when another one is written. -/
theorem fat_setFat_of_ne {c' : Nat} (hc : c < 256 * g.sectorsPerFat)
    (hc' : c' < 256 * g.sectorsPerFat) (hv : v < 65536) (hne : c' ≠ c) :
    fat g (setFat g d c v) c' = fat g d c' := by
  by_cases hcopies : g.fatCount = 0
  · have hsame : setFat g d c v = d := by
      funext lba
      apply if_neg
      rintro ⟨i, hi, -⟩
      omega
    rw [hsame]
  · rw [fat_setFat_of_pos (Nat.pos_of_ne_zero hcopies) hc hc' hv, if_neg hne]

/-- Writes to the FAT and writes behind it commute. -/
theorem setFat_set (hg : g.Valid) (hc : c < 256 * g.sectorsPerFat) {lba : Nat} {buf : Sector}
    (h : g.rootDirSector ≤ lba) :
    setFat g (d.set lba buf) c v = (setFat g d c v).set lba buf := by
  have hmul : 1 * g.sectorsPerFat ≤ g.fatCount * g.sectorsPerFat :=
    Nat.mul_le_mul_right _ hg.fatCount_pos
  have hroot := g.rootDirSector_eq
  funext l
  by_cases hl : l = lba
  · rw [hl, Disk.set_self, setFat_of_le hc h, Disk.set_self]
  · rw [Disk.set_of_ne hl]
    unfold setFat
    rw [Disk.set_of_ne hl, Disk.set_of_ne (by omega)]

theorem IsCluster.lt_fat (hg : g.Valid) (hc : g.IsCluster c) : c < 256 * g.sectorsPerFat :=
  lt_of_lt_of_le hc.2 hg.clusters_le_fat

theorem IsCluster.lt_reserved (hg : g.Valid) (hc : g.IsCluster c) : c < 0xFFF0 :=
  lt_of_lt_of_le hc.2 hg.clusters_le

theorem IsCluster.not_eof (hg : g.Valid) (hc : g.IsCluster c) : ¬ Eof c := by
  have := IsCluster.lt_reserved hg hc
  unfold Eof
  omega

/-! ## Allocation -/

/-- No data cluster is free. -/
def NoneFree (g : Geometry) (d : Disk) : Prop := ∀ c, g.IsCluster c → fat g d c ≠ 0

/-- `c` is the first free cluster. -/
structure LeastFree (g : Geometry) (d : Disk) (c : Nat) : Prop where
  isCluster : g.IsCluster c
  free : fat g d c = 0
  least : ∀ c', 2 ≤ c' → c' < c → fat g d c' ≠ 0

theorem LeastFree.unique {c c' : Nat} (h : LeastFree g d c) (h' : LeastFree g d c') : c = c' := by
  rcases Nat.lt_trichotomy c c' with hlt | heq | hgt
  · exact absurd h.free (h'.least c h.isCluster.1 hlt)
  · exact heq
  · exact absurd h'.free (h.least c' h'.isCluster.1 hgt)

theorem LeastFree.not_noneFree {c : Nat} (h : LeastFree g d c) : ¬ NoneFree g d :=
  fun hnone => hnone c h.isCluster h.free

theorem u16_fatSector (s : Nat) {i : Nat} (hi : i < 256) :
    u16 (d (g.fatStartSector + s)) (2 * i) = fat g d (s * 256 + i) := by
  unfold fat
  congr 2 <;> omega

/-- What the result of the scan of FAT sector `s` says. -/
def ScanSays (g : Geometry) (d : Disk) (s : Nat) : Option Nat → Prop
  | none => s * 256 + 256 ≤ g.totalClusters + 2 ∧
      ∀ c', 2 ≤ c' → c' < s * 256 + 256 → fat g d c' ≠ 0
  | some 0 => NoneFree g d
  | some (c + 1) => LeastFree g d (c + 1)

/-- The scan of FAT sector `s` when all entries before entry `i` of it are taken. -/
theorem scanTable_says (hlt : g.totalClusters + 2 < 65536) (s : Nat) : ∀ n i, i + n = 256 →
    s * 256 + i ≤ g.totalClusters + 2 →
    (∀ c', 2 ≤ c' → c' < s * 256 + i → fat g d c' ≠ 0) →
    ScanSays g d s (scanTable g.totalClusters (d (g.fatStartSector + s)) s n i) := by
  intro n
  induction n with
  | zero =>
      intro i hi hend hbelow
      obtain rfl : i = 256 := by omega
      exact ⟨hend, hbelow⟩
  | succ n ih =>
      intro i hi hbound hbelow
      have hmod : (s * 256 + i) % 65536 = s * 256 + i :=
        Nat.mod_eq_of_lt (lt_of_le_of_lt hbound hlt)
      have hnext : (2 ≤ s * 256 + i → fat g d (s * 256 + i) ≠ 0) →
          ∀ c', 2 ≤ c' → c' < s * 256 + (i + 1) → fat g d c' ≠ 0 := by
        intro htaken c' h2 hlt
        by_cases heq : c' = s * 256 + i
        · rw [heq]
          exact htaken (heq ▸ h2)
        · exact hbelow c' h2 (by omega)
      unfold scanTable
      simp only [hmod, u16_fatSector s (show i < 256 by omega)]
      by_cases h2 : s * 256 + i < 2
      · rw [if_pos h2]
        exact ih (i + 1) (by omega) (by omega) (hnext fun h => by omega)
      · rw [if_neg h2]
        by_cases hend : s * 256 + i ≥ g.totalClusters + 2
        · rw [if_pos hend]
          exact fun c hc => hbelow c hc.1 (lt_of_lt_of_le hc.2 hend)
        · rw [if_neg hend]
          by_cases hfree : fat g d (s * 256 + i) = 0
          · rw [if_pos hfree]
            have hleast : LeastFree g d (s * 256 + i) :=
              ⟨⟨by omega, by omega⟩, hfree, hbelow⟩
            generalize hc : s * 256 + i = c at hleast h2
            cases c with
            | zero => omega
            | succ c => exact hleast
          · rw [if_neg hfree]
            exact ih (i + 1) (by omega) (by omega) (hnext fun _ => hfree)

/-- The scan from FAT sector `s` on, whichever sectors the disk lets it write: it ends in
the update of the first free entry, or finds none and has written nothing. -/
theorem allocFrom_scan (hlt : env.geom.totalClusters + 2 < 65536)
    (hfat : env.geom.totalClusters + 2 ≤ 256 * env.geom.sectorsPerFat)
    (F : Site → Nat → Bool) : ∀ n s, s + n = env.geom.sectorsPerFat →
    s * 256 ≤ env.geom.totalClusters + 2 →
    (∀ c', 2 ≤ c' → c' < s * 256 → fat env.geom d c' ≠ 0) →
    (∃ c, LeastFree env.geom d c ∧ allocFrom n s env { clean d with fence := F } =
      (writeFatEntry c 0xFFFF >>= fun _ => pure c) env { clean d with fence := F }) ∨
    (NoneFree env.geom d ∧
      allocFrom n s env { clean d with fence := F } = .ret (0, { clean d with fence := F })) := by
  intro n
  induction n with
  | zero =>
      intro s hs hle hbelow
      exact Or.inr ⟨fun c hc => hbelow c hc.1 (lt_of_lt_of_le hc.2 (by omega)), rfl⟩
  | succ n ih =>
      intro s hs hle hbelow
      have hscan := scanTable_says (d := d) hlt s 256 0 (Nat.zero_add _)
        (by rw [Nat.add_zero]; exact hle) (by rw [Nat.add_zero]; exact hbelow)
      have hread : ataReadSector .allocScan (env.geom.fatStartSector + s) env
          { clean d with fence := F } =
          .ret (some (d (env.geom.fatStartSector + s)), { clean d with fence := F }) := rfl
      simp only [allocFrom, Fs.bind_apply, Fs.geometry_apply, Exec.ret_bind, hread]
      generalize scanTable env.geom.totalClusters (d (env.geom.fatStartSector + s)) s 256 0 = r
        at hscan
      match r, hscan with
      | none, hscan =>
          have hsucc : (s + 1) * 256 = s * 256 + 256 := Nat.succ_mul s 256
          have hle' : (s + 1) * 256 ≤ env.geom.totalClusters + 2 := by
            rw [hsucc]
            exact hscan.1
          have hbelow' : ∀ c', 2 ≤ c' → c' < (s + 1) * 256 → fat env.geom d c' ≠ 0 := by
            rw [hsucc]
            exact hscan.2
          exact ih (s + 1) (by omega) hle' hbelow'
      | some 0, hscan => exact Or.inr ⟨hscan, rfl⟩
      | some (c + 1), hscan => exact Or.inl ⟨c + 1, hscan, rfl⟩

/-- The update of an entry is the last thing an allocation does. -/
theorem allocated_clean (c : Nat) : (writeFatEntry c 0xFFFF >>= fun _ => pure c : Fs Nat) env
    (clean d) = .ret (c, clean (setFat env.geom d c 0xFFFF)) := by
  simp

/-- **Allocation.**  `fat16_alloc_cluster` takes the least free cluster and marks it as
the end of a chain; it returns `0` and writes nothing when there is none. -/
theorem allocCluster_clean (hg : env.geom.Valid) (d : Disk) :
    (∃ c, LeastFree env.geom d c ∧
      allocCluster env (clean d) = .ret (c, clean (setFat env.geom d c 0xFFFF))) ∨
    (NoneFree env.geom d ∧ allocCluster env (clean d) = .ret (0, clean d)) := by
  have hlt : env.geom.totalClusters + 2 < 65536 := lt_of_le_of_lt hg.clusters_le (by decide)
  rcases allocFrom_scan (d := d) hlt hg.clusters_le_fat (fun _ _ => true) env.geom.sectorsPerFat 0
    (Nat.zero_add _) (by simp) (fun c' _ h => by simp at h) with ⟨c, hc, halloc⟩ | ⟨hnone, halloc⟩
  · exact Or.inl ⟨c, hc, halloc.trans (allocated_clean c)⟩
  · exact Or.inr ⟨hnone, halloc⟩

/-! ## Freeing a chain -/

/-- The FAT with the entries of `cs` cleared. -/
def clearAll (g : Geometry) (d : Disk) (cs : List Nat) : Disk :=
  cs.foldl (fun d c => setFat g d c 0) d

/-- `cs` is the chain of an entry that starts at `start`: no cluster at all, or a chain
of data clusters up to an end mark. -/
structure Owns (g : Geometry) (d : Disk) (start : Nat) (cs : List Nat) : Prop where
  chain : (cs = [] ∧ start = 0) ∨ (cs ≠ [] ∧ Chain (fat g d) Eof start cs)
  isCluster : ∀ c ∈ cs, g.IsCluster c

theorem Owns.nodup {start : Nat} {cs : List Nat} (h : Owns g d start cs) : cs.Nodup := by
  rcases h.chain with ⟨rfl, -⟩ | ⟨-, h⟩
  · exact List.nodup_nil
  · exact h.nodup

/-- An entry has one chain only. -/
theorem Owns.unique {start : Nat} {cs cs' : List Nat} (h : Owns g d start cs)
    (h' : Owns g d start cs') : cs = cs' := by
  have hpos : ∀ {cs : List Nat}, Owns g d 0 cs → cs = [] := by
    intro cs h
    rcases h.chain with ⟨rfl, -⟩ | ⟨hne, hc⟩
    · rfl
    · cases cs with
      | nil => exact absurd rfl hne
      | cons c cs =>
          have := h.isCluster c (List.mem_cons_self ..)
          obtain ⟨rfl, -⟩ := hc
          exact absurd this.1 (by omega)
  rcases h.chain with ⟨rfl, rfl⟩ | ⟨-, hc⟩
  · exact (hpos h').symm
  · rcases h'.chain with ⟨rfl, rfl⟩ | ⟨-, hc'⟩
    · exact hpos h
    · exact hc.unique hc'

/-- A change of the FAT outside a chain keeps it. -/
theorem Owns.congr {d' : Disk} {start : Nat} {cs : List Nat} (h : Owns g d start cs)
    (hfat : ∀ c ∈ cs, fat g d' c = fat g d c) : Owns g d' start cs :=
  ⟨h.chain.imp_right fun hc => ⟨hc.1, hc.2.congr hfat⟩, h.isCluster⟩

/-- Pigeonhole: a chain has at most as many clusters as the volume. -/
theorem length_le_totalClusters {cs : List Nat} (hnodup : cs.Nodup)
    (h : ∀ c ∈ cs, g.IsCluster c) : cs.length ≤ g.totalClusters := by
  have hsub : cs.toFinset ⊆ Finset.Ico 2 (g.totalClusters + 2) := by
    intro c hc
    exact Finset.mem_Ico.2 (h c (List.mem_toFinset.1 hc))
  have hcard := Finset.card_le_card hsub
  rw [List.toFinset_card_of_nodup hnodup, Nat.card_Ico] at hcard
  omega

theorem fat_clearAll (hg : g.Valid) {cs : List Nat} (h : ∀ c ∈ cs, g.IsCluster c)
    (hc : c < 256 * g.sectorsPerFat) :
    fat g (clearAll g d cs) c = if c ∈ cs then 0 else fat g d c := by
  induction cs generalizing d with
  | nil => simp [clearAll]
  | cons a cs ih =>
      have ha : a < 256 * g.sectorsPerFat := IsCluster.lt_fat hg (h a (List.mem_cons_self ..))
      have hstep := ih (d := setFat g d a 0) fun b hb => h b (List.mem_cons_of_mem _ hb)
      rw [show clearAll g d (a :: cs) = clearAll g (setFat g d a 0) cs from rfl, hstep,
        fat_setFat hg ha hc (by omega)]
      by_cases hca : c = a
      · simp [hca]
      · simp [hca]

theorem clearAll_of_le (hg : g.Valid) {cs : List Nat} (h : ∀ c ∈ cs, g.IsCluster c) {lba : Nat}
    (hl : g.rootDirSector ≤ lba) : clearAll g d cs lba = d lba := by
  induction cs generalizing d with
  | nil => rfl
  | cons a cs ih =>
      rw [show clearAll g d (a :: cs) = clearAll g (setFat g d a 0) cs from rfl,
        ih fun b hb => h b (List.mem_cons_of_mem _ hb),
        setFat_of_le (IsCluster.lt_fat hg (h a (List.mem_cons_self ..))) hl]

theorem clearAll_set (hg : g.Valid) {cs : List Nat} (h : ∀ c ∈ cs, g.IsCluster c) {lba : Nat}
    {buf : Sector} (hl : g.rootDirSector ≤ lba) :
    clearAll g (d.set lba buf) cs = (clearAll g d cs).set lba buf := by
  induction cs generalizing d with
  | nil => rfl
  | cons a cs ih =>
      rw [show clearAll g (d.set lba buf) (a :: cs) = clearAll g (setFat g (d.set lba buf) a 0) cs
        from rfl, setFat_set hg (IsCluster.lt_fat hg (h a (List.mem_cons_self ..))) hl,
        ih fun b hb => h b (List.mem_cons_of_mem _ hb)]
      rfl

/-- The loop of `fat16_free_chain` clears a chain that the counter covers. -/
theorem freeFrom_clean (hg : env.geom.Valid) {cs : List Nat} (h : ∀ c ∈ cs, env.geom.IsCluster c) :
    ∀ n v d, cs.length ≤ n → Chain (fat env.geom d) Eof v cs →
      freeFrom n v env (clean d) = .ret ((), clean (clearAll env.geom d cs)) := by
  induction cs with
  | nil =>
      intro n v d _ hv
      have hstop : ¬ (2 ≤ v ∧ v < 0xFFF0) := by
        have : 0xFFF8 ≤ v := hv
        omega
      cases n with
      | zero => rfl
      | succ n =>
          unfold freeFrom
          rw [if_neg hstop]
          rfl
  | cons c cs ih =>
      intro n v d hn hv
      have hnodup := List.nodup_cons.1 hv.nodup
      obtain ⟨rfl, -, hrest⟩ := hv
      have hc := h v (List.mem_cons_self ..)
      have hrange : ∀ a ∈ cs, env.geom.IsCluster a := fun a ha => h a (List.mem_cons_of_mem _ ha)
      obtain ⟨n, rfl⟩ : ∃ k, n = k + 1 := ⟨n - 1, by simp only [List.length_cons] at hn; omega⟩
      unfold freeFrom
      rw [if_pos ⟨hc.1, IsCluster.lt_reserved hg hc⟩]
      simp only [Fs.bind_apply, readFatEntry_clean, writeFatEntry_clean, Exec.ret_bind]
      refine ih hrange n _ _ (by simpa using hn) (hrest.congr fun a ha => ?_)
      rw [fat_setFat hg (IsCluster.lt_fat hg hc) (IsCluster.lt_fat hg (hrange a ha)) (by omega),
        if_neg]
      rintro rfl
      exact hnodup.1 ha

/-- **Freeing.**  `fat16_free_chain` clears the FAT entries of the chain. -/
theorem freeChain_clean (hg : env.geom.Valid) {start : Nat} {cs : List Nat}
    (h : Owns env.geom d start cs) :
    freeChain start env (clean d) = .ret ((), clean (clearAll env.geom d cs)) := by
  unfold freeChain
  simp only [Fs.bind_apply, Fs.geometry_apply, Exec.ret_bind]
  rcases h.chain with ⟨rfl, rfl⟩ | ⟨hne, hc⟩
  · rfl
  · have hlen := length_le_totalClusters h.nodup h.isCluster
    cases cs with
    | nil => exact absurd rfl hne
    | cons c cs =>
        have hstart := h.isCluster c (List.mem_cons_self ..)
        have hres := IsCluster.lt_reserved hg hstart
        obtain ⟨rfl, -, -⟩ := id hc
        rw [if_neg (by have := hstart.1; omega)]
        exact freeFrom_clean hg h.isCluster _ _ _ hlen hc

theorem when_freeChain_clean (hg : env.geom.Valid) {start : Nat} {cs : List Nat}
    (h : Owns env.geom d start cs) :
    Fs.when (2 ≤ start) (freeChain start) env (clean d) =
      .ret ((), clean (clearAll env.geom d cs)) := by
  unfold Fs.when
  split
  · exact freeChain_clean hg h
  · rename_i hlt
    rcases h.chain with ⟨rfl, -⟩ | ⟨hne, hc⟩
    · rfl
    · cases cs with
      | nil => exact absurd rfl hne
      | cons c cs =>
          have := h.isCluster c (List.mem_cons_self ..)
          obtain ⟨rfl, -⟩ := hc
          exact absurd this.1 hlt

end Fat16

end BenmoshOS
