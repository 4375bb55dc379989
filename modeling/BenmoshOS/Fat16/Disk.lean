import BenmoshOS.Lib.Exec

/-!
# FAT16: sectors, geometry and sector I/O

The driver of `fs/fat16.c` sees the disk through `ata_read_sector` and
`ata_write_sector` and through the geometry that `fat16_init` leaves in
`fs_cache`.  This file provides both.

* `Sector`, `Disk`, `Record` — byte arrays, with the little-endian accessors
  `u16`, `u32` of the packed structures of `fat16.h`.
* `Geometry` — the contents of an initialised `fs_cache`.  Its fields carry the
  widths of the C fields and the two equations `fat16_init` computes them by, so
  that no sector number of the driver overflows.
* `Fs` — the monad of the driver: it reads the geometry, works on a disk, and
  meets a fault pattern that decides which sector accesses fail.
* `Site` — the places of the driver that access a sector.  Faults and the record
  of the failed accesses speak about them.
-/

namespace BenmoshOS

namespace Fat16

/-! ## Bytes -/

/-- A string of the source up to its terminating zero byte. -/
abbrev Name := List UInt8

/-- A 512-byte sector buffer. -/
abbrev Sector := Nat → UInt8

/-- The sectors of the volume by their LBA. -/
abbrev Disk := Nat → Sector

/-- A 32-byte directory record. -/
abbrev Record := Nat → UInt8

/-- The bytes of a C string that starts at `bytes`. -/
def cString (bytes : List UInt8) : Name := bytes.takeWhile (· ≠ 0)

/-- `*(uint16_t*)&b[i]` -/
def u16 (b : Nat → UInt8) (i : Nat) : Nat := (b i).toNat + 256 * (b (i + 1)).toNat

/-- `*(uint32_t*)&b[i]` -/
def u32 (b : Nat → UInt8) (i : Nat) : Nat := u16 b i + 65536 * u16 b (i + 2)

/-- `b[i] = v` -/
def setByte (b : Nat → UInt8) (i : Nat) (v : UInt8) : Nat → UInt8 :=
  fun k => if k = i then v else b k

/-- `*(uint16_t*)&b[i] = v` -/
def setU16 (b : Nat → UInt8) (i v : Nat) : Nat → UInt8 :=
  setByte (setByte b i (UInt8.ofNat v)) (i + 1) (UInt8.ofNat (v / 256))

/-- `*(uint32_t*)&b[i] = v` -/
def setU32 (b : Nat → UInt8) (i v : Nat) : Nat → UInt8 :=
  setU16 (setU16 b i v) (i + 2) (v / 65536)

/-- `memcpy(b + i, bytes, bytes.length)` -/
def patch (b : Nat → UInt8) (i : Nat) (bytes : List UInt8) : Nat → UInt8 :=
  fun k => if i ≤ k ∧ k < i + bytes.length then bytes.getD (k - i) 0 else b k

/-- `dir[i]` of a sector buffer. -/
def recordAt (buf : Sector) (i : Nat) : Record :=
  fun k => if k < 32 then buf (32 * i + k) else 0

/-- `dir[i] = r` -/
def setRecord (buf : Sector) (i : Nat) (r : Record) : Sector :=
  fun k => if 32 * i ≤ k ∧ k < 32 * i + 32 then r (k - 32 * i) else buf k

/-- A sector write. -/
def Disk.set (d : Disk) (lba : Nat) (buf : Sector) : Disk :=
  fun l => if l = lba then buf else d l

section Bytes

variable {b : Nat → UInt8} {i j v : Nat}

theorem u16_lt (b : Nat → UInt8) (i : Nat) : u16 b i < 65536 := by
  have h₀ := (b i).toNat_lt
  have h₁ := (b (i + 1)).toNat_lt
  unfold u16
  omega

theorem u32_lt (b : Nat → UInt8) (i : Nat) : u32 b i < 2 ^ 32 := by
  have h₀ := u16_lt b i
  have h₁ := u16_lt b (i + 2)
  unfold u32
  omega

theorem u16_congr {b' : Nat → UInt8} (h₀ : b' i = b i) (h₁ : b' (i + 1) = b (i + 1)) :
    u16 b' i = u16 b i := by
  rw [u16, u16, h₀, h₁]

theorem setU16_of_ne {k : Nat} (h₀ : k ≠ i) (h₁ : k ≠ i + 1) : setU16 b i v k = b k := by
  rw [setU16, setByte, if_neg h₁, setByte, if_neg h₀]

theorem setU32_of_ne {k : Nat} (h : k < i ∨ i + 4 ≤ k) : setU32 b i v k = b k := by
  rw [setU32, setU16_of_ne (by omega) (by omega), setU16_of_ne (by omega) (by omega)]

theorem u16_setU16_self : u16 (setU16 b i v) i = v % 65536 := by
  have h₀ : setU16 b i v i = UInt8.ofNat v := by
    rw [setU16, setByte, if_neg (by omega), setByte, if_pos rfl]
  have h₁ : setU16 b i v (i + 1) = UInt8.ofNat (v / 256) := by rw [setU16, setByte, if_pos rfl]
  rw [u16, h₀, h₁, UInt8.toNat_ofNat', UInt8.toNat_ofNat']
  omega

theorem u16_setU16_of_ne (h : i + 1 < j ∨ j + 1 < i) : u16 (setU16 b i v) j = u16 b j :=
  u16_congr (setU16_of_ne (by omega) (by omega)) (setU16_of_ne (by omega) (by omega))

theorem u32_setU32_self : u32 (setU32 b i v) i = v % 2 ^ 32 := by
  rw [u32, setU32, u16_setU16_of_ne (by omega), u16_setU16_self, u16_setU16_self]
  omega

/-- A byte of a patched buffer outside the patch. -/
theorem patch_of_not_mem {bytes : List UInt8} {k : Nat} (h : k < i ∨ i + bytes.length ≤ k) :
    patch b i bytes k = b k := if_neg (by omega)

theorem patch_add {bytes : List UInt8} {k : Nat} (h : k < bytes.length) :
    patch b i bytes (i + k) = bytes.getD k 0 := by
  rw [patch, if_pos (by omega), Nat.add_sub_cancel_left]

end Bytes

section Records

variable {buf : Sector} {i j k : Nat} {r : Record}

theorem recordAt_of_lt (h : k < 32) : recordAt buf i k = buf (32 * i + k) := if_pos h

theorem recordAt_of_le (h : 32 ≤ k) : recordAt buf i k = 0 := if_neg (by omega)

/-- A record that has only its 32 bytes. -/
def Record.Clipped (r : Record) : Prop := ∀ k, 32 ≤ k → r k = 0

theorem recordAt_clipped (buf : Sector) (i : Nat) : Record.Clipped (recordAt buf i) :=
  fun _ h => recordAt_of_le h

theorem recordAt_setRecord_self (h : Record.Clipped r) :
    recordAt (setRecord buf i r) i = r := by
  funext k
  by_cases hk : k < 32
  · rw [recordAt_of_lt hk, setRecord, if_pos (by omega), Nat.add_sub_cancel_left]
  · rw [recordAt_of_le (by omega), h k (by omega)]

theorem recordAt_setRecord_of_ne (h : j ≠ i) :
    recordAt (setRecord buf i r) j = recordAt buf j := by
  funext k
  by_cases hk : k < 32
  · rw [recordAt_of_lt hk, recordAt_of_lt hk, setRecord, if_neg (by omega)]
  · rw [recordAt_of_le (by omega), recordAt_of_le (by omega)]

/-- Writing one byte of a sector is writing the record that holds it. -/
theorem setByte_eq_setRecord (v : UInt8) (h : k < 32) :
    setByte buf (32 * i + k) v = setRecord buf i (setByte (recordAt buf i) k v) := by
  funext l
  simp only [setByte, setRecord]
  by_cases hl : 32 * i ≤ l ∧ l < 32 * i + 32
  · rw [if_pos hl]
    by_cases he : l = 32 * i + k
    · rw [if_pos he, if_pos (by omega)]
    · rw [if_neg he, if_neg (by omega), recordAt_of_lt (by omega)]
      congr 1
      omega
  · rw [if_neg hl, if_neg (by omega)]

end Records

section Set

variable {d : Disk} {l l' : Nat} {buf buf' : Sector}

@[simp] theorem Disk.set_self : d.set l buf l = buf := if_pos rfl

theorem Disk.set_of_ne (h : l' ≠ l) : d.set l buf l' = d l' := if_neg h

@[simp] theorem Disk.set_get : d.set l (d l) = d := by
  funext k
  unfold Disk.set
  split
  · rename_i hk
    rw [hk]
  · rfl

@[simp] theorem Disk.set_set : (d.set l buf).set l buf' = d.set l buf' := by
  funext k
  unfold Disk.set
  split <;> rfl

end Set

/-! ## Status codes and attributes (`fat16.h`) -/

def eok : Int := 0
def enoent : Int := 2
def eio : Int := 5
def eexist : Int := 17
def enotdir : Int := 20
def eisdir : Int := 21
def einval : Int := 22
def enospc : Int := 28
def enotempty : Int := 39

def attrVolumeId : UInt8 := 0x08
def attrDirectory : UInt8 := 0x10
def attrArchive : UInt8 := 0x20
def attrLfn : UInt8 := 0x0F

namespace Record

def attributes (r : Record) : UInt8 := r 11
def startingCluster (r : Record) : Nat := u16 r 26
def fileSize (r : Record) : Nat := u32 r 28

/-- `entry.attributes & FAT_ATTR_DIRECTORY` -/
def isDirectory (r : Record) : Bool := r.attributes &&& attrDirectory ≠ 0

/-- The entry with `starting_cluster` and `file_size` set. -/
def withChain (r : Record) (cluster size : Nat) : Record :=
  setU32 (setU16 r 26 cluster) 28 size

variable {r : Record} {cluster size : Nat}

theorem withChain_of_lt {k : Nat} (h : k < 26) : r.withChain cluster size k = r k := by
  rw [withChain, setU32_of_ne (by omega), setU16_of_ne (by omega) (by omega)]

@[simp] theorem attributes_withChain : (r.withChain cluster size).attributes = r.attributes :=
  withChain_of_lt (by omega)

@[simp] theorem isDirectory_withChain : (r.withChain cluster size).isDirectory = r.isDirectory := by
  rw [isDirectory, isDirectory, attributes_withChain]

theorem startingCluster_withChain (h : cluster < 65536) :
    (r.withChain cluster size).startingCluster = cluster := by
  unfold startingCluster withChain
  rw [u16_congr (setU32_of_ne (by omega)) (setU32_of_ne (by omega)), u16_setU16_self]
  omega

theorem fileSize_withChain (h : size < 2 ^ 32) : (r.withChain cluster size).fileSize = size := by
  rw [fileSize, withChain, u32_setU32_self]
  omega

theorem Clipped.withChain (h : r.Clipped) : (r.withChain cluster size).Clipped := by
  intro k hk
  rw [Record.withChain, setU32_of_ne (by omega), setU16_of_ne (by omega) (by omega), h k hk]

end Record

/-! ## Geometry -/

/-- The cached geometry of an initialised driver (`fat16_cache_t`).  The bounds are
those of the boot sector fields it is computed from; `sectors_per_cluster` is not
zero because `fat16_init` divides by it. -/
structure Geometry where
  fatStartSector : Nat
  rootDirSector : Nat
  dataStartSector : Nat
  rootDirSizeSectors : Nat
  sectorsPerFat : Nat
  fatCount : Nat
  sectorsPerCluster : Nat
  totalSectors : Nat
  totalClusters : Nat
  fatStartSector_lt : fatStartSector < 2 ^ 16
  rootDirSizeSectors_lt : rootDirSizeSectors < 2 ^ 12
  sectorsPerFat_lt : sectorsPerFat < 2 ^ 16
  fatCount_lt : fatCount < 2 ^ 8
  sectorsPerCluster_lt : sectorsPerCluster < 2 ^ 8
  sectorsPerCluster_pos : 0 < sectorsPerCluster
  totalSectors_lt : totalSectors < 2 ^ 32
  totalClusters_lt : totalClusters < 2 ^ 16
  rootDirSector_eq : rootDirSector = fatStartSector + fatCount * sectorsPerFat
  dataStartSector_eq : dataStartSector = rootDirSector + rootDirSizeSectors

/-- The geometry of a volume with one reserved sector and clusters of one sector. -/
def Geometry.small (rootDirSizeSectors sectorsPerFat fatCount totalClusters : Nat)
    (h : rootDirSizeSectors < 2 ^ 12 ∧ sectorsPerFat < 2 ^ 16 ∧ fatCount < 2 ^ 8 ∧
      totalClusters < 2 ^ 16) : Geometry where
  fatStartSector := 1
  rootDirSector := 1 + fatCount * sectorsPerFat
  dataStartSector := 1 + fatCount * sectorsPerFat + rootDirSizeSectors
  rootDirSizeSectors := rootDirSizeSectors
  sectorsPerFat := sectorsPerFat
  fatCount := fatCount
  sectorsPerCluster := 1
  totalSectors := 1 + fatCount * sectorsPerFat + rootDirSizeSectors + totalClusters
  totalClusters := totalClusters
  fatStartSector_lt := by decide
  rootDirSizeSectors_lt := h.1
  sectorsPerFat_lt := h.2.1
  fatCount_lt := h.2.2.1
  sectorsPerCluster_lt := by decide
  sectorsPerCluster_pos := by decide
  totalSectors_lt := by
    have hfats : fatCount * sectorsPerFat ≤ 2 ^ 8 * 2 ^ 16 :=
      Nat.mul_le_mul h.2.2.1.le h.2.1.le
    omega
  totalClusters_lt := h.2.2.2
  rootDirSector_eq := rfl
  dataStartSector_eq := rfl

/-- `data_start_sector + (cluster - 2) * sectors_per_cluster` -/
def Geometry.clusterLba (g : Geometry) (cluster : Nat) : Nat :=
  g.dataStartSector + (cluster - 2) * g.sectorsPerCluster

/-- `sectors_per_cluster * ATA_SECTOR_SIZE` -/
def Geometry.clusterBytes (g : Geometry) : Nat := g.sectorsPerCluster * 512

theorem Geometry.clusterBytes_pos (g : Geometry) : 0 < g.clusterBytes :=
  Nat.mul_pos g.sectorsPerCluster_pos (by decide)

/-- Every sector number the driver forms from a 16-bit cluster fits `uint32_t` (and
the 28 bits of an LBA). -/
theorem Geometry.clusterLba_lt (g : Geometry) {c s : Nat} (hc : c < 2 ^ 16)
    (hs : s < g.sectorsPerCluster) : g.clusterLba c + s < 2 ^ 28 := by
  have h₁ := g.fatStartSector_lt
  have h₂ := g.rootDirSizeSectors_lt
  have h₃ := g.rootDirSector_eq
  have h₄ := g.dataStartSector_eq
  have hspc := g.sectorsPerCluster_lt
  have hfat : g.fatCount * g.sectorsPerFat ≤ 2 ^ 8 * 2 ^ 16 :=
    Nat.mul_le_mul g.fatCount_lt.le g.sectorsPerFat_lt.le
  have hclu : (c - 2) * g.sectorsPerCluster ≤ 2 ^ 16 * 2 ^ 8 :=
    Nat.mul_le_mul (by omega) hspc.le
  unfold clusterLba
  omega

/-! ## Sector accesses -/

/-- The places of the driver a sector access is made for. -/
inductive Site where
  /-- Lookup of an inner component in `fat16_resolve_path`. -/
  | component
  /-- Lookup of the last component at the end of `fat16_resolve_path`. -/
  | lastComponent
  /-- Lookup that decides whether the name to be created is already there. -/
  | existing
  /-- Lookup of the file an operation works on. -/
  | target
  /-- Lookup of the directory to be removed. -/
  | directory
  /-- Lookup of a candidate short name in `fat16_insert_entry`. -/
  | shortName
  /-- Search for free slots in `fat16_insert_entry`. -/
  | slotSearch
  /-- Emptiness check of `fat16_remove_directory`. -/
  | emptyCheck
  /-- FAT scan of `fat16_alloc_cluster`. -/
  | allocScan
  /-- Accesses of `fat16_write_fat_entry`. -/
  | fatUpdate
  /-- `fat16_read_fat_entry` in `fat16_free_chain`. -/
  | freeWalk
  /-- `fat16_read_fat_entry` in `fat16_load_file`. -/
  | loadWalk
  /-- `fat16_read_fat_entry` in the append walk of `fat16_write_file`. -/
  | appendWalk
  /-- Sectors of the new records in `fat16_insert_entry`. -/
  | records
  /-- Data sectors of `fat16_load_file` and `fat16_write_file`. -/
  | data
  /-- Update or tombstone of a directory entry. -/
  | entryUpdate
  /-- Sectors of a new directory in `fat16_make_directory`. -/
  | newDirectory
  /-- Lookup and iteration of `fat16_list_directory`. -/
  | listing
  deriving DecidableEq, Repr

/-- What a call finds outside the driver: the geometry, the bound on the rounds of an
unbounded loop, and `kmalloc`, which yields a buffer with some contents or `NULL`. -/
structure Env where
  geom : Geometry
  fuel : Nat
  kmalloc : Nat → Option (Nat → UInt8)

/-- The disk, the faults the accesses to come will meet, and the sites at which an
access has failed.  `faults n site` is `none` when the access after the next `n` ones
succeeds if it is made at `site`; otherwise it is what a failing write leaves in the
sector.

`fence` is an observer the driver does not see: it tells for each site which sectors may
be written, and a write elsewhere ends the run.  A run is held by no fence unless one is
given. -/
structure Io where
  disk : Disk
  faults : Nat → Site → Option Sector
  failed : List Site
  fence : Site → Nat → Bool := fun _ _ => true

/-- A disk whose accesses meet the given faults. -/
def faulty (d : Disk) (faults : Nat → Site → Option Sector) : Io :=
  { disk := d, faults := faults, failed := [] }

/-- A disk on which no access fails. -/
def clean (d : Disk) : Io := faulty d fun _ _ => none

/-- A call of a function of the driver. -/
def Fs (α : Type) : Type := Env → Io → Exec (α × Io)

namespace Fs

variable {α β σ ρ : Type}

instance : Monad Fs where
  pure a := fun _ io => .ret (a, io)
  bind x f := fun env io => x env io >>= fun p => f p.1 env p.2

@[simp] theorem pure_apply (a : α) (env : Env) (io : Io) :
    (pure a : Fs α) env io = .ret (a, io) := rfl

@[simp] theorem bind_apply (x : Fs α) (f : α → Fs β) (env : Env) (io : Io) :
    (x >>= f) env io = (x env io >>= fun p => f p.1 env p.2) := rfl

/-- `fs_cache` -/
def geometry : Fs Geometry := fun env io => .ret (env.geom, io)

@[simp] theorem geometry_apply (env : Env) (io : Io) :
    geometry env io = .ret (env.geom, io) := rfl

/-- `kmalloc(n)` -/
def kmalloc (n : Nat) : Fs (Option (Nat → UInt8)) := fun env io => .ret (env.kmalloc n, io)

@[simp] theorem kmalloc_apply (n : Nat) (env : Env) (io : Io) :
    kmalloc n env io = .ret (env.kmalloc n, io) := rfl

/-- `if (c) x;` -/
def when (c : Prop) [Decidable c] (x : Fs Unit) : Fs Unit := if c then x else pure ()

/-- One round of a loop, with the disk as a part of the loop state. -/
def round (body : σ → Fs (σ ⊕ ρ)) (env : Env) (p : σ × Io) : Exec ((σ × Io) ⊕ (ρ × Io)) :=
  body p.1 env p.2 >>= fun q =>
    match q.1 with
    | .inl s => .ret (.inl (s, q.2))
    | .inr r => .ret (.inr (r, q.2))

/-- An unbounded loop of the driver. -/
def loop (body : σ → Fs (σ ⊕ ρ)) (s : σ) : Fs ρ :=
  fun env io => Exec.loop (round body env) env.fuel (s, io)

/-- A loop that returns has gone round once more or has left. -/
theorem round_cases {body : σ → Fs (σ ⊕ ρ)} {env : Env} {fuel : Nat} {s : σ} {io io' : Io} {r : ρ}
    (h : Exec.loop (round body env) (fuel + 1) (s, io) = .ret (r, io')) :
    (∃ s₁ io₁, body s env io = .ret (.inl s₁, io₁) ∧
      Exec.loop (round body env) fuel (s₁, io₁) = .ret (r, io')) ∨
    body s env io = .ret (.inr r, io') := by
  unfold Exec.loop round at h
  cases hb : body s env io with
  | panic p => simp [hb] at h
  | spin => simp [hb] at h
  | ret q =>
      obtain ⟨x, io₁⟩ := q
      cases x with
      | inl s₁ =>
          simp only [hb, Exec.ret_bind] at h
          exact Or.inl ⟨s₁, io₁, rfl, h⟩
      | inr r₁ =>
          simp only [hb, Exec.ret_bind, Exec.ret.injEq, Prod.mk.injEq] at h
          exact Or.inr (by rw [h.1, h.2])

end Fs

/-- The next access has been made. -/
def Io.tick (io : Io) : Io := { io with faults := fun n => io.faults (n + 1) }

/-- `ata_read_sector(lba, buffer)`; `none` is a failed read. -/
def ataReadSector (site : Site) (lba : Nat) : Fs (Option Sector) := fun _ io =>
  match io.faults 0 site with
  | none => .ret (some (io.disk lba), io.tick)
  | some _ => .ret (none, { io.tick with failed := io.failed ++ [site] })

/-- What a write outside the fence ends in. -/
def outsideFence (lba : Nat) : Panic := ⟨"sector %d written outside the fence", [lba]⟩

/-- `ata_write_sector(lba, buffer) == 0` -/
def ataWriteSector (site : Site) (lba : Nat) (buf : Sector) : Fs Bool := fun _ io =>
  if io.fence site lba then
    match io.faults 0 site with
    | none => .ret (true, { io.tick with disk := io.disk.set lba buf })
    | some left =>
        .ret (false, { io.tick with disk := io.disk.set lba left, failed := io.failed ++ [site] })
  else .panic (outsideFence lba)

@[simp] theorem ataReadSector_clean (site : Site) (lba : Nat) (env : Env) (d : Disk) :
    ataReadSector site lba env (clean d) = .ret (some (d lba), clean d) := rfl

@[simp] theorem ataWriteSector_clean (site : Site) (lba : Nat) (buf : Sector) (env : Env)
    (d : Disk) :
    ataWriteSector site lba buf env (clean d) = .ret (true, clean (d.set lba buf)) := rfl

end Fat16

end BenmoshOS
