import BenmoshOS.Fat16.Disk

/-!
# FAT16: the driver

The functions of `fs/fat16.c`, layer by layer, as they compute: cluster allocation,
8.3 and long names, directory iteration and lookup, path resolution, insertion of
directory entries, and the calls of the public interface.

A function that the source calls at several places takes the `Site` of the call; it
has no influence on what the function does when no access fails.  A path or a name is
the list of the bytes before its terminating zero; a null path is refused like the
empty one.
-/

namespace BenmoshOS

namespace Fat16

/-! ## Layer 1: FAT table and cluster allocation -/

/-- `fat16_read_fat_entry`: a failed read counts as `0xFFFF`. -/
def readFatEntry (site : Site) (cluster : Nat) : Fs Nat := do
  let g ← Fs.geometry
  match ← ataReadSector site (g.fatStartSector + cluster * 2 / 512) with
  | none => pure 0xFFFF
  | some buffer => pure (u16 buffer (cluster * 2 % 512))

/-- The mirroring loop of `fat16_write_fat_entry`, from copy `i` on. -/
def mirrorFat (sectorOffset : Nat) (buffer : Sector) : Nat → Nat → Fs Int
  | 0, _ => pure eok
  | n + 1, i => do
      let g ← Fs.geometry
      if ← ataWriteSector .fatUpdate (g.fatStartSector + i * g.sectorsPerFat + sectorOffset) buffer
      then mirrorFat sectorOffset buffer n (i + 1)
      else pure (-eio)

/-- `fat16_write_fat_entry` -/
def writeFatEntry (cluster value : Nat) : Fs Int := do
  let g ← Fs.geometry
  match ← ataReadSector .fatUpdate (g.fatStartSector + cluster * 2 / 512) with
  | none => pure (-eio)
  | some buffer =>
      mirrorFat (cluster * 2 / 512) (setU16 buffer (cluster * 2 % 512) value) g.fatCount 0

/-- The scan of one FAT sector in `fat16_alloc_cluster`, from entry `i` on: `none` when
the scan goes on with the next sector, `some 0` when it ends without a free cluster,
and `some c` when `c` is free.  `cluster_idx` is a 16-bit variable. -/
def scanTable (totalClusters : Nat) (buffer : Sector) (s : Nat) : Nat → Nat → Option Nat
  | 0, _ => none
  | n + 1, i =>
      let clusterIdx := (s * 256 + i) % 65536
      if clusterIdx < 2 then scanTable totalClusters buffer s n (i + 1)
      else if clusterIdx ≥ totalClusters + 2 then some 0
      else if u16 buffer (2 * i) = 0 then some clusterIdx
      else scanTable totalClusters buffer s n (i + 1)

/-- `fat16_alloc_cluster` from FAT sector `s` on. -/
def allocFrom : Nat → Nat → Fs Nat
  | 0, _ => pure 0
  | n + 1, s => do
      let g ← Fs.geometry
      match ← ataReadSector .allocScan (g.fatStartSector + s) with
      | none => pure 0
      | some buffer =>
          match scanTable g.totalClusters buffer s 256 0 with
          | none => allocFrom n (s + 1)
          | some 0 => pure 0
          | some cluster => do
              let _ ← writeFatEntry cluster 0xFFFF
              pure cluster

/-- `fat16_alloc_cluster`: the number of the new cluster, or `0`. -/
def allocCluster : Fs Nat := do
  let g ← Fs.geometry
  allocFrom g.sectorsPerFat 0

/-- The loop of `fat16_free_chain`; the first argument is `safety_counter`. -/
def freeFrom : Nat → Nat → Fs Unit
  | 0, _ => pure ()
  | n + 1, curr =>
      if 2 ≤ curr ∧ curr < 0xFFF0 then do
        let next ← readFatEntry .freeWalk curr
        let _ ← writeFatEntry curr 0
        freeFrom n next
      else pure ()

/-- `fat16_free_chain` -/
def freeChain (startCluster : Nat) : Fs Unit := do
  let g ← Fs.geometry
  if startCluster < 2 ∨ startCluster ≥ 0xFFF8 then pure ()
  else freeFrom g.totalClusters startCluster

/-! ## Layer 2: short and long names -/

def space : UInt8 := 0x20
def dot : UInt8 := 0x2E
def slash : UInt8 := 0x2F
def tilde : UInt8 := 0x7E

/-- ASCII lower case. -/
def lower (c : UInt8) : UInt8 := if 0x41 ≤ c ∧ c ≤ 0x5A then c + 32 else c

/-- ASCII upper case. -/
def upper (c : UInt8) : UInt8 := if 0x61 ≤ c ∧ c ≤ 0x7A then c - 32 else c

/-- The case-insensitive comparison of `find_file_callback` and `match_sfn`: the string
in `buf` from index `i` on against `target`. -/
def matchFrom (buf : Nat → UInt8) : Nat → Name → Bool
  | i, [] => buf i = 0
  | i, c :: target =>
      if buf i = 0 then false
      else if lower (buf i) ≠ lower c then false
      else matchFrom buf (i + 1) target

/-- Eight bytes of a base name and three of an extension without their padding. -/
def dotted (base extension : List UInt8) : List UInt8 :=
  base.filter (· ≠ space) ++
    (if extension.headD space ≠ space then dot :: extension.filter (· ≠ space) else [])

/-- The bytes `i, …, i + n - 1` of a buffer. -/
def slice (b : Nat → UInt8) (i n : Nat) : List UInt8 := (List.range n).map fun k => b (i + k)

/-- `match_sfn` -/
def matchSfn (entry : Record) (target : Name) : Bool :=
  let sfn := (dotted (slice entry 0 8) (slice entry 8 3)).map lower
  matchFrom (fun i => sfn.getD i 0) 0 target

/-- `lfn_checksum` -/
def lfnChecksum (shortName : List UInt8) : UInt8 :=
  shortName.foldl
    (fun sum c => (if sum &&& 1 ≠ 0 then (0x80 : UInt8) else 0) + (sum >>> (1 : UInt8)) + c) 0

/-- A list filled up with spaces to length `n`. -/
def padTo (n : Nat) (l : List UInt8) : List UInt8 := l ++ List.replicate (n - l.length) space

/-- The numeric tail `~N` of `generate_short_name`. -/
def numericTail (attempt : Nat) : List UInt8 :=
  if attempt < 10 then [tilde, UInt8.ofNat (attempt + 0x30)]
  else if attempt < 100 then
    [tilde, UInt8.ofNat (attempt / 10 + 0x30), UInt8.ofNat (attempt % 10 + 0x30)]
  else
    [tilde, UInt8.ofNat (attempt / 100 + 0x30), UInt8.ofNat (attempt / 10 % 10 + 0x30),
      UInt8.ofNat (attempt % 10 + 0x30)]

/-- `base_name` of `generate_short_name`. -/
def baseName (lfn : Name) : List UInt8 :=
  (((lfn.takeWhile (· ≠ dot)).filter (· ≠ space)).take 8).map upper

/-- The extension of `generate_short_name`: up to three characters behind the last dot. -/
def extensionOf (lfn : Name) : List UInt8 :=
  if dot ∈ lfn then (((lfn.reverse.takeWhile (· ≠ dot)).reverse).take 3).map upper else []

/-- `generate_short_name`: the 11 bytes of `sfn_out`. -/
def generateShortName (lfn : Name) (attempt : Nat) : List UInt8 :=
  let base := baseName lfn
  let tail := numericTail attempt
  let keepLen := if base.length + tail.length > 8 then 8 - tail.length else base.length
  padTo 8 (base.take keepLen ++ tail) ++ padTo 3 (extensionOf lfn)

/-! ## Layer 3: directory iteration -/

variable {κ : Type}

/-- A visitor: it sees the sector, the slot and the record and may change its context.
A positive action ends the iteration normally, a negative one with an error. -/
abbrev Visitor (κ : Type) := Nat → Nat → Record → κ → Int × κ

/-- The records `i, …, i + n - 1` of a sector; `some status` when the visitor ends the
iteration. -/
def visitRecords (callback : Visitor κ) (sec : Nat) (buffer : Sector) :
    Nat → Nat → κ → Option Int × κ
  | 0, _, context => (none, context)
  | n + 1, i, context =>
      let result := callback sec i (recordAt buffer i) context
      if result.1 < 0 then (some result.1, result.2)
      else if result.1 > 0 then (some eok, result.2)
      else visitRecords callback sec buffer n (i + 1) result.2

/-- `n` sectors of a directory from `sec` on. -/
def visitSectors (site : Site) (callback : Visitor κ) : Nat → Nat → κ → Fs (Option Int × κ)
  | 0, _, context => pure (none, context)
  | n + 1, sec, context => do
      match ← ataReadSector site sec with
      | none => pure (some (-eio), context)
      | some buffer =>
          match visitRecords callback sec buffer 16 0 context with
          | (some status, context) => pure (some status, context)
          | (none, context) => visitSectors site callback n (sec + 1) context

/-- One cluster of a subdirectory, and the step to the next one. -/
def visitCluster (site : Site) (callback : Visitor κ) (p : Nat × κ) :
    Fs ((Nat × κ) ⊕ (Int × κ)) := do
  let g ← Fs.geometry
  if 2 ≤ p.1 ∧ p.1 < 0xFFF8 then do
    match ← visitSectors site callback g.sectorsPerCluster (g.clusterLba p.1) p.2 with
    | (some status, context) => pure (.inr (status, context))
    | (none, context) => do
        let next ← readFatEntry site p.1
        pure (.inl (next, context))
  else pure (.inr (eok, p.2))

/-- `iterate_directory` -/
def iterateDirectory (site : Site) (dirCluster : Nat) (callback : Visitor κ) (context : κ) :
    Fs (Int × κ) := do
  let g ← Fs.geometry
  if dirCluster = 0 then do
    let r ← visitSectors site callback g.rootDirSizeSectors g.rootDirSector context
    pure (r.1.getD eok, r.2)
  else Fs.loop (visitCluster site callback) (dirCluster, context)

/-- What `fat16_find_in_dir` finds: the entry, its sector and its slot. -/
structure Found where
  entry : Record
  sector : Nat
  idx : Nat

/-- `find_file_ctx_t`.  `lfnBuffer` holds the 256 bytes of `lfn_buffer` and behind them
the four bytes of the flag `found`, which the fragment with index 19 reaches. -/
structure FindCtx where
  out : Found
  lfnBuffer : Nat → UInt8

/-- `ctx.found` -/
def FindCtx.found (ctx : FindCtx) : Bool := u32 ctx.lfnBuffer 256 ≠ 0

/-- The context after `memset(&ctx, 0, sizeof(ctx))`. -/
def FindCtx.zero : FindCtx := ⟨⟨fun _ => 0, 0, 0⟩, fun _ => 0⟩

/-- `memset(lfn_buffer, 0, 256)` -/
def clearBuffer (b : Nat → UInt8) : Nat → UInt8 := fun k => if k < 256 then 0 else b k

/-- Where the `j`-th of the 13 characters of an LFN record stands in it. -/
def charOffset (j : Nat) : Nat :=
  if j < 5 then 1 + 2 * j else if j < 11 then 14 + 2 * (j - 5) else 28 + 2 * (j - 11)

/-- A UCS-2 unit of an LFN record as a character of the buffer. -/
def decodeUnit (unit : Nat) : UInt8 := if unit = 0xFFFF then 0 else UInt8.ofNat unit

/-- The buffer after an LFN fragment. -/
def putFragment (b : Nat → UInt8) (lfn : Record) : Nat → UInt8 :=
  let sequence := (lfn 0 &&& 0x1F).toNat
  if 1 ≤ sequence ∧ sequence ≤ 20 then
    patch b ((sequence - 1) * 13)
      ((List.range 13).map fun j => decodeUnit (u16 lfn (charOffset j)))
  else b

/-- `find_file_callback` -/
def findFileCallback (targetName : Name) : Visitor FindCtx := fun sector slotIdx entry ctx =>
  if entry 0 = 0x00 then (1, ctx)
  else if entry 0 = 0xE5 then (0, { ctx with lfnBuffer := clearBuffer ctx.lfnBuffer })
  else if entry.attributes = attrLfn then
    (0, { ctx with lfnBuffer := putFragment ctx.lfnBuffer entry })
  else if entry.attributes ≠ attrVolumeId then
    if (ctx.lfnBuffer 0 ≠ 0 ∧ matchFrom ctx.lfnBuffer 0 targetName) ∨ matchSfn entry targetName then
      (1, ⟨⟨entry, sector, slotIdx⟩, setU32 ctx.lfnBuffer 256 1⟩)
    else (0, { ctx with lfnBuffer := clearBuffer ctx.lfnBuffer })
  else (0, ctx)

/-- `fat16_find_in_dir`; `none` is `-ENOENT`.  The status of the iteration is ignored. -/
def findInDir (site : Site) (dirCluster : Nat) (name : Name) : Fs (Option Found) := do
  let r ← iterateDirectory site dirCluster (findFileCallback name) FindCtx.zero
  pure (if r.2.found then some r.2.out else none)

/-! ## Layer 4: path resolution -/

/-- The loop of `fat16_resolve_path`.  Every round consumes a character, so the number
of rounds is bounded by the length of the path. -/
def resolveFrom : Nat → Nat → List UInt8 → Fs (Except Int (Nat × Name))
  | 0, _, _ => pure (.error (-einval))
  | n + 1, currentDir, path =>
      if path = [] then pure (.error (-einval))
      else
        let component := (path.takeWhile (· ≠ slash)).take 255
        let rest := (path.drop component.length).dropWhile (· = slash)
        if component = [dot] then resolveFrom n currentDir rest
        else if rest ≠ [] then do
          match ← findInDir .component currentDir component with
          | none => pure (.error (-enoent))
          | some found =>
              if found.entry.isDirectory then
                resolveFrom n found.entry.startingCluster rest
              else pure (.error (-enotdir))
        else if component = [] then pure (.error (-einval))
        else do
          let _ ← findInDir .lastComponent currentDir component
          pure (.ok (currentDir, component))

/-- `fat16_resolve_path`: the cluster of the parent directory and the last component. -/
def resolvePath (path : List UInt8) : Fs (Except Int (Nat × Name)) :=
  let path := cString path
  if path = [] then pure (.error (-einval))
  else
    let tail := if path.head? = some slash then path.tail else path
    resolveFrom tail.length 0 tail

/-! ## Layer 5: insertion of entries -/

/-- `slot_search_ctx_t` without the constant `slots_needed`. -/
structure SlotCtx where
  consecutiveFound : Nat
  startSector : Nat
  startSlot : Nat
  done : Bool

def SlotCtx.zero : SlotCtx := ⟨0, 0, 0, false⟩

/-- `slot_search_callback` -/
def slotSearchCallback (slotsNeeded : Nat) : Visitor SlotCtx := fun sector slotIdx entry ctx =>
  if entry 0 = 0x00 ∨ entry 0 = 0xE5 then
    let ctx := if ctx.consecutiveFound = 0 then
        { ctx with startSector := sector, startSlot := slotIdx }
      else ctx
    let ctx := { ctx with consecutiveFound := ctx.consecutiveFound + 1 }
    if ctx.consecutiveFound = slotsNeeded then (1, { ctx with done := true }) else (0, ctx)
  else (0, { ctx with consecutiveFound := 0 })

/-- `temp_target`: the short name as it is looked up. -/
def tempTarget (sfn : List UInt8) : Name := cString (dotted (sfn.take 8) (sfn.drop 8))

/-- One attempt of the collision loop of `fat16_insert_entry`. -/
def tryShortName (parentCluster : Nat) (name : Name) (attempt : Nat) :
    Fs (Nat ⊕ List UInt8) := do
  let sfn := generateShortName name attempt
  match ← findInDir .shortName parentCluster (tempTarget sfn) with
  | none => pure (.inr sfn)
  | some _ => pure (.inl (attempt + 1))

/-- The 16-bit unit at position `pos` of a long name: characters are signed, the name
ends in a zero and is filled up with `0xFFFF`. -/
def encodeUnit (name : Name) (pos : Nat) : Nat :=
  if pos < name.length then
    let c := (name.getD pos 0).toNat
    if c < 0x80 then c else 0xFF00 + c
  else if pos = name.length then 0x0000
  else 0xFFFF

/-- The LFN record number `lfnIdx` of a name; `last` marks the first one on disk. -/
def lfnRecord (name : Name) (chksum : UInt8) (lfnIdx : Nat) (last : Bool) : Record :=
  let header := setByte (setByte (setByte (fun _ => 0) 0
    (UInt8.ofNat lfnIdx ||| (if last then 0x40 else 0))) 11 attrLfn) 13 chksum
  (List.range 13).foldl
    (fun r j => setU16 r (charOffset j) (encodeUnit name ((lfnIdx - 1) * 13 + j))) header

/-- The 8.3 record of a new entry. -/
def sfnRecord (sfn : List UInt8) (attributes : UInt8) (cluster size : Nat) : Record :=
  Record.withChain (setByte (patch (fun _ => 0) 0 sfn) 11 attributes) cluster size

/-- `lfn_count` -/
def lfnCount (name : Name) : Nat := (name.length + 12) / 13

/-- The records of a new entry in the order in which they are written. -/
def newRecords (name : Name) (sfn : List UInt8) (attributes : UInt8) (cluster size : Nat) :
    List Record :=
  (List.range (lfnCount name)).map
      (fun i => lfnRecord name (lfnChecksum sfn) (lfnCount name - i) (i = 0)) ++
    [sfnRecord sfn attributes cluster size]

/-- The loop of `fat16_insert_entry` that streams the records to disk. -/
def writeRecords : List Record → Nat → Sector → Nat → Fs Int
  | [], currentSec, secBuf, _ => do
      if ← ataWriteSector .records currentSec secBuf then pure eok else pure (-eio)
  | record :: records, currentSec, secBuf, slot =>
      let secBuf := setRecord secBuf slot record
      if slot + 1 ≥ 16 then do
        if ← ataWriteSector .records currentSec secBuf then
          match ← ataReadSector .records (currentSec + 1) with
          | none => pure (-eio)
          | some secBuf => writeRecords records (currentSec + 1) secBuf 0
        else pure (-eio)
      else writeRecords records currentSec secBuf (slot + 1)

/-- `fat16_insert_entry` -/
def insertEntry (parentCluster : Nat) (name : Name) (attributes : UInt8) (cluster size : Nat) :
    Fs Int := do
  let sfn ← Fs.loop (tryShortName parentCluster name) 1
  let r ← iterateDirectory .slotSearch parentCluster
    (slotSearchCallback (lfnCount name + 1)) SlotCtx.zero
  if r.2.done then
    match ← ataReadSector .records r.2.startSector with
    | none => pure (-eio)
    | some secBuf =>
        writeRecords (newRecords name sfn attributes cluster size) r.2.startSector secBuf
          r.2.startSlot
  else pure (-enospc)

/-! ## Layer 6: the public interface -/

/-- The state of the read loop of `fat16_load_file`. -/
structure LoadState where
  currCluster : Nat
  bytesLeft : Nat
  writeOffset : Nat
  ramBuffer : Nat → UInt8

/-- The sectors of one cluster in `fat16_load_file`; `none` is a failed read. -/
def loadSectors : Nat → Nat → LoadState → Fs (Option LoadState)
  | 0, _, st => pure (some st)
  | n + 1, lba, st =>
      if 0 < st.bytesLeft then do
        match ← ataReadSector .data lba with
        | none => pure none
        | some sectorBuf =>
            let chunk := if st.bytesLeft < 512 then st.bytesLeft else 512
            loadSectors n (lba + 1)
              { st with
                bytesLeft := st.bytesLeft - chunk
                writeOffset := st.writeOffset + chunk
                ramBuffer := patch st.ramBuffer st.writeOffset (slice sectorBuf 0 chunk) }
      else pure (some st)

/-- One cluster of `fat16_load_file`. -/
def loadCluster (st : LoadState) : Fs (LoadState ⊕ Option (Nat → UInt8)) := do
  let g ← Fs.geometry
  if 2 ≤ st.currCluster ∧ st.currCluster < 0xFFF8 ∧ 0 < st.bytesLeft then do
    match ← loadSectors g.sectorsPerCluster (g.clusterLba st.currCluster) st with
    | none => pure (.inr none)
    | some st => do
        let next ← readFatEntry .loadWalk st.currCluster
        pure (.inl { st with currCluster := next })
  else pure (.inr (some st.ramBuffer))

/-- `fat16_load_file`: the buffer and `*out_file_size`, or `NULL`. -/
def loadFile (path : List UInt8) : Fs (Option ((Nat → UInt8) × Nat)) := do
  match ← resolvePath path with
  | .error _ => pure none
  | .ok (parentCluster, filename) =>
      match ← findInDir .target parentCluster filename with
      | none => pure none
      | some ⟨entry, _, _⟩ =>
          if entry.isDirectory then pure none
          else if entry.fileSize = 0 then do
            match ← Fs.kmalloc 1 with
            | none => pure none
            | some emptyBuffer => pure (some (setByte emptyBuffer 0 0, 0))
          else do
            match ← Fs.kmalloc entry.fileSize with
            | none => pure none
            | some ramBuffer =>
                match ← Fs.loop loadCluster
                    ⟨entry.startingCluster, entry.fileSize, 0, ramBuffer⟩ with
                | none => pure none
                | some buffer => pure (some (buffer, entry.fileSize))

/-- `fat16_create_file` -/
def createFile (path : List UInt8) : Fs Int := do
  match ← resolvePath path with
  | .error res => pure res
  | .ok (parentCluster, filename) =>
      match ← findInDir .existing parentCluster filename with
      | some _ => pure (-eexist)
      | none => insertEntry parentCluster filename attrArchive 0 0

/-- The label `update_dir` of `fat16_write_file`: the entry is written back. -/
def updateDir (found : Found) (entry : Record) : Fs Int := do
  match ← ataReadSector .entryUpdate found.sector with
  | none => pure (-eio)
  | some dirBuf =>
      if ← ataWriteSector .entryUpdate found.sector (setRecord dirBuf found.idx entry) then
        pure eok
      else pure (-eio)

/-- One round of the append walk of `fat16_write_file`; the state is `curr_cluster` and
`prev_cluster`. -/
def walkRound (p : Nat × Nat) : Fs ((Nat × Nat) ⊕ (Nat × Nat)) :=
  if 2 ≤ p.1 ∧ p.1 < 0xFFF8 then do
    let next ← readFatEntry .appendWalk p.1
    if next ≥ 0xFFF8 then pure (.inr (p.1, p.1)) else pure (.inl (next, p.1))
  else pure (.inr p)

/-- The cluster variables and the progress of the write loop. -/
structure WriteState where
  firstCluster : Nat
  currCluster : Nat
  prevCluster : Nat
  bytesWritten : Nat

/-- The sectors of one cluster in `fat16_write_file`: from `lba` on, at most `n`
sectors.  The result is `bytes_written`. -/
def writeSectors (data : List UInt8) : Nat → Nat → Nat → Nat → Fs (Except Int Nat)
  | 0, _, _, bytesWritten => pure (.ok bytesWritten)
  | n + 1, lba, secOffset, bytesWritten =>
      if bytesWritten < data.length then do
        -- a partial sector is read first, a full one is built from zeroes
        match ← (if 0 < secOffset ∨ data.length - bytesWritten < 512 then
            ataReadSector .data lba else pure (some fun _ => 0)) with
        | none => pure (.error (-eio))
        | some sectorBuf =>
            let chunk := min (512 - secOffset) (data.length - bytesWritten)
            let sectorBuf := patch sectorBuf secOffset ((data.drop bytesWritten).take chunk)
            if ← ataWriteSector .data lba sectorBuf then
              writeSectors data n (lba + 1) 0 (bytesWritten + chunk)
            else pure (.error (-eio))
      else pure (.ok bytesWritten)

/-- The cluster a round of the write loop works on: a new one at a cluster boundary.
`none` is a full disk. -/
def nextCluster (inClusterOffset : Nat) (st : WriteState) : Fs (Option WriteState) :=
  if inClusterOffset = 0 ∨ st.currCluster < 2 then do
    let newC ← allocCluster
    if newC = 0 then pure none
    else do
      Fs.when (2 ≤ st.prevCluster) do
        let _ ← writeFatEntry st.prevCluster newC
      pure (some { st with
        firstCluster := if st.firstCluster = 0 then newC else st.firstCluster
        currCluster := newC
        prevCluster := newC })
  else pure (some st)

/-- One round of the core write loop of `fat16_write_file`. -/
def writeRound (data : List UInt8) (append : Bool) (fileSize : Nat) (st : WriteState) :
    Fs (WriteState ⊕ Except Int Nat) := do
  let g ← Fs.geometry
  if st.bytesWritten < data.length then
    let inClusterOffset :=
      if append ∧ 0 < fileSize ∧ st.bytesWritten = 0 then fileSize % g.clusterBytes else 0
    match ← nextCluster inClusterOffset st with
    | none => pure (.inr (.error (-enospc)))
    | some st =>
        let startSec := inClusterOffset / 512
        match ← writeSectors data (g.sectorsPerCluster - startSec)
            (g.clusterLba st.currCluster + startSec) (inClusterOffset % 512) st.bytesWritten with
        | .error res => pure (.inr (.error res))
        | .ok bytesWritten => pure (.inl { st with bytesWritten := bytesWritten })
  else pure (.inr (.ok st.firstCluster))

/-- The cluster variables before the write loop: an overwritten file is truncated, an
appended one is walked to its last cluster. -/
def prepareWrite (append : Bool) (startingCluster : Nat) : Fs WriteState := do
  if append then
    if 2 ≤ startingCluster then
      let r ← Fs.loop walkRound (startingCluster, 0)
      pure ⟨startingCluster, r.1, r.2, 0⟩
    else pure ⟨startingCluster, 0, 0, 0⟩
  else
    Fs.when (2 ≤ startingCluster) (freeChain startingCluster)
    pure ⟨0, 0, 0, 0⟩

/-- `fat16_write_file` from the point on where the entry of the file is known. -/
def writeEntry (found : Found) (data : List UInt8) (append : Bool) : Fs Int := do
  let entry := found.entry
  if entry.isDirectory then pure (-eisdir)
  else if append = false ∧ data.length = 0 then
    Fs.when (2 ≤ entry.startingCluster) (freeChain entry.startingCluster)
    updateDir found (entry.withChain 0 0)
  else
    let st ← prepareWrite append entry.startingCluster
    match ← Fs.loop (writeRound data append entry.fileSize) st with
    | .error res => pure res
    | .ok firstCluster =>
        updateDir found (entry.withChain firstCluster
          (if append then wrap32 (entry.fileSize + data.length) else data.length))

/-- `fat16_write_file` -/
def writeFile (path : List UInt8) (data : List UInt8) (append : Bool) : Fs Int := do
  match ← resolvePath path with
  | .error res => pure res
  | .ok (parentCluster, filename) =>
      match ← findInDir .existing parentCluster filename with
      | some found => writeEntry found data append
      | none => do
          let res ← insertEntry parentCluster filename attrArchive 0 0
          if res ≠ eok then pure res
          else
            match ← findInDir .target parentCluster filename with
            | none => pure (-enoent)
            | some found => writeEntry found data append

/-- The tombstone `0xE5` of a removed entry. -/
def markDeleted (found : Found) : Fs Int := do
  match ← ataReadSector .entryUpdate found.sector with
  | none => pure (-eio)
  | some buffer =>
      if ← ataWriteSector .entryUpdate found.sector (setByte buffer (32 * found.idx) 0xE5) then
        pure eok
      else pure (-eio)

/-- `fat16_delete_file` -/
def deleteFile (path : List UInt8) : Fs Int := do
  match ← resolvePath path with
  | .error res => pure res
  | .ok (parentCluster, filename) =>
      match ← findInDir .target parentCluster filename with
      | none => pure (-enoent)
      | some found =>
          if found.entry.isDirectory then pure (-eisdir)
          else do
            Fs.when (2 ≤ found.entry.startingCluster) (freeChain found.entry.startingCluster)
            markDeleted found

/-- The record `.` or `..` of a new directory. -/
def dotRecord (name : List UInt8) (cluster : Nat) : Record :=
  setU16 (setByte (patch (fun _ => 0) 0 (padTo 11 name)) 11 attrDirectory) 26 cluster

/-- The first sector of a new directory. -/
def newDirSector (newDirCluster parentCluster : Nat) : Sector :=
  setRecord (setRecord (fun _ => 0) 0 (dotRecord [dot] newDirCluster)) 1
    (dotRecord [dot, dot] parentCluster)

/-- The loop of `fat16_make_directory` that writes the sectors of the new directory. -/
def flushDirectory : Nat → Nat → Sector → Fs Bool
  | 0, _, _ => pure true
  | n + 1, lba, dirBuf => do
      if ← ataWriteSector .newDirectory lba dirBuf then flushDirectory n (lba + 1) fun _ => 0
      else pure false

/-- `fat16_make_directory` -/
def makeDirectory (path : List UInt8) : Fs Int := do
  match ← resolvePath path with
  | .error res => pure res
  | .ok (parentCluster, dirname) =>
      match ← findInDir .existing parentCluster dirname with
      | some _ => pure (-eexist)
      | none => do
          let g ← Fs.geometry
          let newDirCluster ← allocCluster
          if newDirCluster = 0 then pure (-enospc)
          else do
            if ← flushDirectory g.sectorsPerCluster (g.clusterLba newDirCluster)
                (newDirSector newDirCluster parentCluster) then
              insertEntry parentCluster dirname attrDirectory newDirCluster 0
            else pure (-eio)

/-- `empty_check_callback`; the context is the counter. -/
def emptyCheckCallback : Visitor Nat := fun _ _ entry count =>
  if entry 0 = 0x00 then (1, count)
  else if entry 0 = 0xE5 then (0, count)
  else if entry.attributes ≠ attrVolumeId ∧ entry.attributes ≠ attrLfn then
    if entry 0 = dot ∧ (entry 1 = space ∨ (entry 1 = dot ∧ entry 2 = space)) then (0, count)
    else (1, count + 1)
  else (0, count)

/-- `fat16_remove_directory` -/
def removeDirectory (path : List UInt8) : Fs Int := do
  match ← resolvePath path with
  | .error res => pure res
  | .ok (parentCluster, dirname) =>
      match ← findInDir .directory parentCluster dirname with
      | none => pure (-enoent)
      | some found =>
          if found.entry.isDirectory then do
            let r ← iterateDirectory .emptyCheck found.entry.startingCluster emptyCheckCallback 0
            if 0 < r.2 then pure (-enotempty)
            else do
              freeChain found.entry.startingCluster
              markDeleted found
          else pure (-enotdir)

/-- What `list_dir_callback` prints for an entry. -/
structure Line where
  directory : Bool
  name : List UInt8
  size : Nat

/-- `list_dir_ctx_t`, and the lines printed so far.  `lfnBuf` holds the 256 bytes of
`lfn_buf` and the four behind them that the fragment with index 19 reaches. -/
structure ListCtx where
  lfnBuf : Nat → UInt8
  printed : List Line

def ListCtx.zero : ListCtx := ⟨fun _ => 0, []⟩

/-- `list_dir_callback` -/
def listDirCallback : Visitor ListCtx := fun _ _ entry ctx =>
  if entry 0 = 0x00 then (1, ctx)
  else if entry 0 = 0xE5 then (0, { ctx with lfnBuf := setByte ctx.lfnBuf 0 0 })
  else if entry.attributes = attrLfn then (0, { ctx with lfnBuf := putFragment ctx.lfnBuf entry })
  else if entry.attributes ≠ attrVolumeId then
    let name := if ctx.lfnBuf 0 ≠ 0 then cString (slice ctx.lfnBuf 0 260)
      else dotted (slice entry 0 8) (slice entry 8 3)
    (0, ⟨setByte ctx.lfnBuf 0 0, ctx.printed ++ [⟨entry.isDirectory, name, entry.fileSize⟩]⟩)
  else (0, ctx)

/-- The iteration of `fat16_list_directory`: its status and what has been printed. -/
def listFrom (targetCluster : Nat) : Fs (Int × List Line) := do
  let r ← iterateDirectory .listing targetCluster listDirCallback ListCtx.zero
  pure (r.1, r.2.printed)

/-- `fat16_list_directory`; the root is named by `/` and by the empty path. -/
def listDirectory (path : List UInt8) : Fs (Int × List Line) :=
  if cString path = [] ∨ cString path = [slash] then listFrom 0
  else do
    match ← resolvePath path with
    | .error res => pure (res, [])
    | .ok (parentCluster, dirname) =>
        match ← findInDir .listing parentCluster dirname with
        | none => pure (-enoent, [])
        | some found =>
            if found.entry.isDirectory then listFrom found.entry.startingCluster
            else pure (-enotdir, [])

/-- The calls of the public interface that change the volume. -/
inductive Call where
  | createFile (path : List UInt8)
  | writeFile (path data : List UInt8) (append : Bool)
  | deleteFile (path : List UInt8)
  | makeDirectory (path : List UInt8)
  | removeDirectory (path : List UInt8)

/-- The code a call returns. -/
def Call.run : Call → Fs Int
  | .createFile path => Fat16.createFile path
  | .writeFile path data append => Fat16.writeFile path data append
  | .deleteFile path => Fat16.deleteFile path
  | .makeDirectory path => Fat16.makeDirectory path
  | .removeDirectory path => Fat16.removeDirectory path

end Fat16

end BenmoshOS
