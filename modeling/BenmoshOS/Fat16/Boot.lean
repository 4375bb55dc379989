import BenmoshOS.Fat16.Disk

/-!
# FAT16: the geometry in the boot sector

`fat16_init` takes the geometry of the volume from the boot sector as it finds it there.

* `fat16Init` — the function, with the division it makes.
* `Cache.Holds` — an initialised cache holds a `Geometry`, so the driver works with one.
* `init_safe_iff` — for which boot sectors the cached values are what their names say.
-/

namespace BenmoshOS

namespace Fat16

/-- `fat16_cache_t` -/
structure Cache where
  fatStartSector : Nat
  rootDirSector : Nat
  dataStartSector : Nat
  rootDirSizeSectors : Nat
  sectorsPerFat : Nat
  fatCount : Nat
  sectorsPerCluster : Nat
  totalSectors : Nat
  totalClusters : Nat
  initialized : Bool

/-- `fs_cache` at the start of the kernel. -/
def Cache.zero : Cache := ⟨0, 0, 0, 0, 0, 0, 0, 0, 0, false⟩

/-! ## The fields of `bpb_t` -/

def bpbSectorsPerCluster (buffer : Sector) : Nat := (buffer 13).toNat
def bpbReservedSectors (buffer : Sector) : Nat := u16 buffer 14
def bpbFatCount (buffer : Sector) : Nat := (buffer 16).toNat
def bpbRootDirEntries (buffer : Sector) : Nat := u16 buffer 17
def bpbTotalSectors16 (buffer : Sector) : Nat := u16 buffer 19
def bpbSectorsPerFat (buffer : Sector) : Nat := u16 buffer 22

/-- The total number of sectors: the 16-bit field, or the 32-bit one when that is zero. -/
def bpbTotalSectors (buffer : Sector) : Nat :=
  if bpbTotalSectors16 buffer = 0 then u32 buffer 32 else bpbTotalSectors16 buffer

/-- The sector behind the FAT copies. -/
def bpbRootDirSector (buffer : Sector) : Nat :=
  wrap32 (bpbReservedSectors buffer + bpbFatCount buffer * bpbSectorsPerFat buffer)

/-- The sector behind the root directory. -/
def bpbDataStartSector (buffer : Sector) : Nat :=
  wrap32 (bpbRootDirSector buffer + bpbRootDirEntries buffer * 32 / 512)

/-- The number of clusters: the difference is one of unsigned 32-bit numbers, and the quotient is
stored in 16 bits. -/
def bpbTotalClusters (buffer : Sector) : Nat :=
  wrap32 (bpbTotalSectors buffer + 2 ^ 32 - bpbDataStartSector buffer) /
    bpbSectorsPerCluster buffer % 65536

/-- What a division by zero ends in. -/
def divideByZero : Panic := ⟨"Divide by Zero Exception at EIP: 0x%x", []⟩

/-- `fat16_init`, given what `ata_read_sector(0, buffer)` reads. -/
def fat16Init (read : Option Sector) (fsCache : Cache) : Exec Cache :=
  match read with
  | none => .ret fsCache
  | some buffer =>
      if bpbSectorsPerCluster buffer = 0 then .panic divideByZero
      else .ret
        { fatStartSector := bpbReservedSectors buffer
          rootDirSector := bpbRootDirSector buffer
          dataStartSector := bpbDataStartSector buffer
          rootDirSizeSectors := bpbRootDirEntries buffer * 32 / 512
          sectorsPerFat := bpbSectorsPerFat buffer
          fatCount := bpbFatCount buffer
          sectorsPerCluster := bpbSectorsPerCluster buffer
          totalSectors := bpbTotalSectors buffer
          totalClusters := bpbTotalClusters buffer
          initialized := true }

/-- `ensure_init` -/
def ensureInit (read : Option Sector) (fsCache : Cache) : Exec Cache :=
  if fsCache.initialized then .ret fsCache else fat16Init read fsCache

/-! ## What is cached -/

section Bounds

variable {buffer : Sector}

theorem bpbRootDirSector_eq : bpbRootDirSector buffer =
    bpbReservedSectors buffer + bpbFatCount buffer * bpbSectorsPerFat buffer := by
  have hreserved : bpbReservedSectors buffer < 65536 := u16_lt _ _
  have hcopies : bpbFatCount buffer * bpbSectorsPerFat buffer ≤ 256 * 65536 := by
    apply Nat.mul_le_mul
    · exact (buffer 16).toNat_lt.le
    · exact (u16_lt buffer 22).le
  apply Nat.mod_eq_of_lt
  omega

theorem bpbRootDirSector_lt : bpbRootDirSector buffer < 2 ^ 25 := by
  have hreserved : bpbReservedSectors buffer < 65536 := u16_lt _ _
  have hcopies : bpbFatCount buffer * bpbSectorsPerFat buffer ≤ 255 * 65535 := by
    apply Nat.mul_le_mul
    · exact Nat.le_of_lt_succ (buffer 16).toNat_lt
    · exact Nat.le_of_lt_succ (u16_lt buffer 22)
  rw [bpbRootDirSector_eq]
  omega

theorem bpbDataStartSector_eq : bpbDataStartSector buffer =
    bpbRootDirSector buffer + bpbRootDirEntries buffer * 32 / 512 := by
  have hroot : bpbRootDirSector buffer < 2 ^ 25 := bpbRootDirSector_lt
  have hentries : bpbRootDirEntries buffer < 65536 := u16_lt _ _
  apply Nat.mod_eq_of_lt
  omega

theorem bpbTotalSectors_lt : bpbTotalSectors buffer < 2 ^ 32 := by
  have h16 : bpbTotalSectors16 buffer < 65536 := u16_lt _ _
  unfold bpbTotalSectors
  split
  · exact u32_lt _ _
  · omega

end Bounds

/-- The cache holds the geometry `g`. -/
structure Cache.Holds (c : Cache) (g : Geometry) : Prop where
  fatStartSector : c.fatStartSector = g.fatStartSector
  rootDirSector : c.rootDirSector = g.rootDirSector
  dataStartSector : c.dataStartSector = g.dataStartSector
  rootDirSizeSectors : c.rootDirSizeSectors = g.rootDirSizeSectors
  sectorsPerFat : c.sectorsPerFat = g.sectorsPerFat
  fatCount : c.fatCount = g.fatCount
  sectorsPerCluster : c.sectorsPerCluster = g.sectorsPerCluster
  totalSectors : c.totalSectors = g.totalSectors
  totalClusters : c.totalClusters = g.totalClusters

/-- **The geometry of the driver.**  A `fat16_init` that reads the boot sector and returns has
cached a geometry. -/
theorem fat16Init_holds {buffer : Sector} {c c' : Cache}
    (h : fat16Init (some buffer) c = .ret c') : c'.initialized = true ∧ ∃ g, c'.Holds g := by
  unfold fat16Init at h
  simp only at h
  split at h
  · exact absurd h (by simp)
  · rename_i hspc
    obtain rfl := Exec.ret.inj h
    have hentries : bpbRootDirEntries buffer < 65536 := u16_lt _ _
    refine ⟨rfl, ⟨bpbReservedSectors buffer, bpbRootDirSector buffer, bpbDataStartSector buffer,
      bpbRootDirEntries buffer * 32 / 512, bpbSectorsPerFat buffer, bpbFatCount buffer,
      bpbSectorsPerCluster buffer, bpbTotalSectors buffer, bpbTotalClusters buffer, u16_lt _ _,
      by omega, u16_lt _ _, (buffer 16).toNat_lt, (buffer 13).toNat_lt, Nat.pos_of_ne_zero hspc,
      bpbTotalSectors_lt, Nat.mod_lt _ (by decide), bpbRootDirSector_eq, bpbDataStartSector_eq⟩, ?_⟩
    exact ⟨rfl, rfl, rfl, rfl, rfl, rfl, rfl, rfl, rfl⟩

/-- A call of the driver works with a geometry as soon as the boot sector has been read. -/
theorem ensureInit_holds {read : Option Sector} {c c' : Cache}
    (hc : c.initialized = true → ∃ g, c.Holds g) (h : ensureInit read c = .ret c')
    (hinit : c'.initialized = true) : ∃ g, c'.Holds g := by
  unfold ensureInit at h
  split at h
  · rename_i hdone
    obtain rfl := Exec.ret.inj h
    exact hc hdone
  · cases read with
    | none =>
        obtain rfl := Exec.ret.inj h
        exact hc hinit
    | some buffer => exact (fat16Init_holds h).2

/-! ## Boot sectors that can be worked with -/

/-- The cached values are what they stand for, when the root directory is to have
`rootDirEntries` entries. -/
structure Cache.Safe (c : Cache) (rootDirEntries : Nat) : Prop where
  sectorsPerCluster : 1 ≤ c.sectorsPerCluster
  dataStartSector : c.dataStartSector ≤ c.totalSectors
  totalClusters : c.totalClusters = (c.totalSectors - c.dataStartSector) / c.sectorsPerCluster
  rootDirSizeSectors : rootDirEntries * 32 ≤ c.rootDirSizeSectors * 512

/-- `fat16_init` does not divide by zero, and what it caches is safe. -/
structure InitSafe (buffer : Sector) : Prop where
  no_panic : ∀ c p, fat16Init (some buffer) c ≠ .panic p
  safe : ∀ c c', fat16Init (some buffer) c = .ret c' → c'.initialized = true →
    c'.Safe (bpbRootDirEntries buffer)

/-- The fields of the boot sector describe a volume: clusters have sectors, the metadata lies
in the volume, the number of its clusters has 16 bits, and the root directory fills its
sectors. -/
structure BootFits (buffer : Sector) : Prop where
  sectorsPerCluster : bpbSectorsPerCluster buffer ≠ 0
  metadata : bpbReservedSectors buffer + bpbFatCount buffer * bpbSectorsPerFat buffer +
    bpbRootDirEntries buffer / 16 ≤ bpbTotalSectors buffer
  clusters : bpbTotalSectors buffer <
    bpbReservedSectors buffer + bpbFatCount buffer * bpbSectorsPerFat buffer +
      bpbRootDirEntries buffer / 16 + 65536 * bpbSectorsPerCluster buffer
  rootDirEntries : 16 ∣ bpbRootDirEntries buffer

theorem bpbDataStartSector_sum {buffer : Sector} : bpbDataStartSector buffer =
    bpbReservedSectors buffer + bpbFatCount buffer * bpbSectorsPerFat buffer +
      bpbRootDirEntries buffer / 16 := by
  rw [bpbDataStartSector_eq, bpbRootDirSector_eq]
  omega

/-- The difference of `fat16_init` without a borrow. -/
theorem wrap32_sub {a b : Nat} (ha : a < 2 ^ 32) (h : b ≤ a) : wrap32 (a + 2 ^ 32 - b) = a - b := by
  unfold wrap32
  omega

/-- **The boot sector.**  What `fat16_init` caches is safe exactly when the fields fit together. -/
theorem init_safe_iff (buffer : Sector) : InitSafe buffer ↔ BootFits buffer := by
  have htotal : bpbTotalSectors buffer < 2 ^ 32 := bpbTotalSectors_lt
  constructor
  · intro h
    have hspc : bpbSectorsPerCluster buffer ≠ 0 := by
      intro hzero
      exact h.no_panic Cache.zero divideByZero (if_pos hzero)
    have hsafe := h.safe Cache.zero _ (if_neg hspc) rfl
    have hdata : bpbDataStartSector buffer ≤ bpbTotalSectors buffer := hsafe.dataStartSector
    have hclusters : bpbTotalClusters buffer =
        (bpbTotalSectors buffer - bpbDataStartSector buffer) / bpbSectorsPerCluster buffer :=
      hsafe.totalClusters
    have hroot : bpbRootDirEntries buffer * 32 ≤ bpbRootDirEntries buffer * 32 / 512 * 512 :=
      hsafe.rootDirSizeSectors
    have hfew : (bpbTotalSectors buffer - bpbDataStartSector buffer) /
        bpbSectorsPerCluster buffer < 65536 := by
      rw [← hclusters]
      exact Nat.mod_lt _ (by decide)
    rw [Nat.div_lt_iff_lt_mul (Nat.pos_of_ne_zero hspc)] at hfew
    rw [bpbDataStartSector_sum] at hdata hfew
    refine ⟨hspc, hdata, by omega, ?_⟩
    apply Nat.dvd_of_mod_eq_zero
    omega
  · intro h
    have hspc := h.sectorsPerCluster
    refine ⟨fun c p hpanic => ?_, fun c c' hrun _ => ?_⟩
    · exact absurd ((if_neg hspc).symm.trans hpanic) (by simp)
    · obtain rfl := Exec.ret.inj ((if_neg hspc).symm.trans hrun)
      have hdata : bpbDataStartSector buffer ≤ bpbTotalSectors buffer := by
        rw [bpbDataStartSector_sum]
        exact h.metadata
      have hfew : (bpbTotalSectors buffer - bpbDataStartSector buffer) /
          bpbSectorsPerCluster buffer < 65536 := by
        rw [Nat.div_lt_iff_lt_mul (Nat.pos_of_ne_zero hspc), bpbDataStartSector_sum]
        have := h.clusters
        have := h.metadata
        omega
      refine ⟨Nat.pos_of_ne_zero hspc, hdata, ?_, ?_⟩
      · show bpbTotalClusters buffer = _
        rw [bpbTotalClusters, wrap32_sub htotal hdata]
        exact Nat.mod_eq_of_lt hfew
      · show bpbRootDirEntries buffer * 32 ≤ bpbRootDirEntries buffer * 32 / 512 * 512
        have := h.rootDirEntries
        omega

/-- A sector of zeroes makes `fat16_init` divide by zero. -/
theorem zero_sector_divides_by_zero : ¬ InitSafe fun _ => 0 :=
  fun h => h.no_panic Cache.zero divideByZero rfl

end Fat16

end BenmoshOS
