import BenmoshOS.Fat16.Capacity

/-!
# FAT16: which sectors a call may write on a damaged volume

Whatever the FAT and the directories of a volume hold, `fat16_delete_file`,
`fat16_remove_directory` and `fat16_write_file` should write the FAT copies, the directory their
path leads to, and data clusters.  They do when the links they follow stay inside the volume;
the driver does not check that.

* `Allowed` — the sectors that a call on a path may write.
* `Rewrite` — the three calls; `Rewrite.Inside` — what the disk must hold for them.
* `contained_iff_inside` — a call stays inside then, and only then.
-/

namespace BenmoshOS

namespace Fat16

open Exec (Yields Halts)
open Fs

variable {g : Geometry} {d d' : Disk} {kmalloc : Nat → Option (Nat → UInt8)}
  {P : Site → Nat → Prop}

/-! ## The write loop -/

section Loop

variable {st : WriteState} {data : List UInt8} {append : Bool} {fileSize : Nat}

/-- What the write loop needs of the clusters it begins with: the entry of `prev` is in the FAT
if a new cluster is linked to it, and the sectors of `curr` are inside that the data reaches
behind `offset`. -/
structure LoopInside (Q : Nat → Prop) (g : Geometry) (d : Disk) (data : List UInt8)
    (offset curr prev : Nat) : Prop where
  link : offset = 0 ∨ curr < 2 ∨ g.clusterBytes < offset + data.length → ¬ NoneFree g d →
    2 ≤ prev → prev < 256 * g.sectorsPerFat
  sectors : offset ≠ 0 → 2 ≤ curr → ∀ s < g.sectorsPerCluster - offset / 512,
    512 * s < data.length + offset % 512 → Q (g.clusterLba curr + offset / 512 + s)

/-- A loop that begins with a new cluster stays inside when the last cluster can be linked to it. -/
theorem within_writeLoop_boundary (hg : g.Valid) (hP : ∀ lba, P .fatUpdate lba ↔ g.InFat lba)
    (hdata : ∀ c lba, g.IsCluster c → g.InCluster c lba → P .data lba)
    (hb : st.bytesWritten < data.length)
    (hboundary : roundOffset g append fileSize st = 0 ∨ st.currCluster < 2) (d : Disk) :
    (Fs.loop (writeRound data append fileSize) st).Within P g kmalloc d ↔
      (¬ NoneFree g d → 2 ≤ st.prevCluster → st.prevCluster < 256 * g.sectorsPerFat) := by
  have hround : (writeRound data append fileSize st).Within P g kmalloc d ↔ _ :=
    within_writeRound_boundary hg hP hdata hb hboundary d
  rw [← hround]
  rcases writeRound_boundary hg kmalloc hb hboundary d with ⟨c, d', hc, hrun, -⟩ | ⟨-, hrun⟩
  · have hlt := filled_lt (roundOffset_lt g append fileSize st) hb
    have hbytes : ((st.extended c).advanced g data append fileSize).bytesWritten =
        filled g data (roundOffset g append fileSize st) st.bytesWritten := rfl
    rw [within_writeLoop_next hrun]
    refine and_iff_left (within_rounds hg hP hdata _ d' ?_ fun _ => ?_)
    · exact roundOffset_eq_zero (by omega)
    · exact IsCluster.lt_fat hg hc.isCluster
  · exact within_writeLoop_last hrun

/-- **The write loop.**  It stays inside exactly when it finds what it needs. -/
theorem within_writeLoop_iff (hg : g.Valid) (hP : ∀ lba, P .fatUpdate lba ↔ g.InFat lba)
    (hdata : ∀ c lba, g.IsCluster c → g.InCluster c lba → P .data lba)
    (hfirst : st.bytesWritten = 0) (hne : 0 < data.length) (d : Disk) :
    (Fs.loop (writeRound data append fileSize) st).Within P g kmalloc d ↔
      LoopInside (P .data) g d data (roundOffset g append fileSize st) st.currCluster
        st.prevCluster := by
  have hb : st.bytesWritten < data.length := by omega
  by_cases hboundary : roundOffset g append fileSize st = 0 ∨ st.currCluster < 2
  · rw [within_writeLoop_boundary hg hP hdata hb hboundary]
    constructor
    · refine fun h => ⟨fun _ => h, fun hoffset hcurr => ?_⟩
      rcases hboundary with hzero | hlow
      · exact absurd hzero hoffset
      · omega
    · exact fun h => h.link (hboundary.imp_right Or.inl)
  · obtain ⟨d', hrun, hframe⟩ := writeRound_inside kmalloc hb hboundary d
    have hbytes : (st.advanced g data append fileSize).bytesWritten =
        filled g data (roundOffset g append fileSize st) st.bytesWritten := rfl
    have hlt := filled_lt (roundOffset_lt g append fileSize st) hb
    have hoffset := roundOffset_lt g append fileSize st
    have hnone : NoneFree g d' ↔ NoneFree g d := by
      rw [noneFree_iff, noneFree_iff, freeClusters_filled hg (by omega) hframe]
    rw [within_writeLoop_next hrun, within_writeRound_inside hb hboundary d, hfirst]
    simp only [Nat.zero_add]
    by_cases hmore : g.clusterBytes < roundOffset g append fileSize st + data.length
    · have hb' : (st.advanced g data append fileSize).bytesWritten < data.length := by
        rw [hbytes, filled]
        omega
      rw [within_writeLoop_boundary hg hP hdata hb' (Or.inl (roundOffset_eq_zero (by omega))), hnone]
      constructor
      · exact fun h => ⟨fun _ => h.2, fun _ _ => h.1⟩
      · exact fun h => ⟨h.sectors (by omega) (by omega), h.link (Or.inr (Or.inr hmore))⟩
    · -- the data ends in this cluster
      have hend : ¬ (st.advanced g data append fileSize).bytesWritten < data.length := by
        rw [hbytes, filled]
        omega
      rw [and_iff_left (within_writeLoop_done hend d')]
      constructor
      · refine fun h => ⟨fun hlink => ?_, fun _ _ => h⟩
        rcases hlink with hzero | hlow | hmore'
        · exact absurd (Or.inl hzero) hboundary
        · exact absurd (Or.inr hlow) hboundary
        · exact absurd hmore' hmore
      · exact fun h => h.sectors (by omega) (by omega)

end Loop

/-! ## The entry of a file -/

/-- The fence of a call: FAT entries are written in the FAT, all other sectors are in `Q`. -/
def writeFence (g : Geometry) (Q : Nat → Prop) : Site → Nat → Prop
  | .fatUpdate, lba => g.InFat lba
  | _, lba => Q lba

section Entry

variable {Q : Nat → Prop} {data : List UInt8} {append : Bool} {found : Found} {start : Nat}

/-- What `fat16_write_file` needs of the entry it has found: if its chain is freed, its entries are in
the FAT; the write loop finds what it needs; and if there are enough clusters for the data, the slot
of the entry is inside. -/
structure EntryInside (Q : Nat → Prop) (g : Geometry) (d : Disk) (data : List UInt8)
    (append : Bool) (found : Found) : Prop where
  freed : append = false → FreesInFat g d g.totalClusters found.entry.startingCluster
  loop : 0 < data.length → ∀ curr prev,
    BeginsWith g d append found.entry.startingCluster curr prev →
      LoopInside Q g d data (keptSize append found.entry.fileSize % g.clusterBytes) curr prev
  slot : ∀ curr prev, BeginsWith g d append found.entry.startingCluster curr prev →
    Suffices (available g d append found.entry.startingCluster) prev
      (asked g data (keptSize append found.entry.fileSize % g.clusterBytes) curr) → Q found.sector

/-- The write loop of a file without clusters. -/
theorem LoopInside.of_none {offset : Nat} : LoopInside Q g d data offset 0 0 :=
  ⟨fun _ _ h => absurd h (by omega), fun _ h => absurd h (by omega)⟩

theorem within_prepareWrite (hg : g.Valid) :
    (prepareWrite append start).Within (writeFence g Q) g kmalloc d ↔
      (append = false → FreesInFat g d g.totalClusters start) := by
  cases append with
  | true =>
      have hquiet : (prepareWrite true start).Quiet := by
        by_cases hstart : 2 ≤ start
        · have hrun : prepareWrite true start = (Fs.loop walkRound (start, 0) >>= fun r =>
              pure ⟨start, r.1, r.2, 0⟩) := if_pos hstart
          rw [hrun]
          exact (quiet_appendWalk _).bind fun _ => quiet_pure _
        · have hrun : prepareWrite true start = pure ⟨start, 0, 0, 0⟩ := if_neg hstart
          rw [hrun]
          exact quiet_pure _
      exact iff_of_true (hquiet.within _ g kmalloc d) (by simp)
  | false =>
      have htotal := total_when (c := 2 ≤ start) (total_freeChain start)
      obtain ⟨a, d', hfree⟩ := htotal.runs g kmalloc d
      have hrun : prepareWrite false start = (Fs.when (2 ≤ start) (freeChain start) >>= fun _ =>
          pure ⟨0, 0, 0, 0⟩) := rfl
      rw [hrun, htotal.within_bind (hfree 0), and_iff_left ((quiet_pure _).within _ g kmalloc d'),
        within_when_freeChain hg fun _ => Iff.rfl]
      simp

theorem within_finishWrite {first : Nat} :
    (finishWrite found data append (.ok first)).Within (writeFence g Q) g kmalloc d ↔
      Q found.sector := within_updateDir _ _ _

theorem within_writeTail {st : WriteState} :
    (writeTail found data append st).Within (writeFence g Q) g kmalloc d ↔
      (Fs.loop (writeRound data append found.entry.fileSize) st).Within (writeFence g Q) g kmalloc d ∧
        ∀ first d', Yields ((Fs.loop (writeRound data append found.entry.fileSize) st).run g kmalloc
          (clean d)) (.ok first, clean d') → Q found.sector := by
  rw [writeTail, within_bind (regular_writeLoop _ _ _ _) (regular_finishWrite found data append)]
  refine and_congr_right fun _ => ?_
  constructor
  · exact fun h first d' hok => within_finishWrite.1 (h _ d' hok)
  · intro h r d' hr
    cases r with
    | error res => exact (quiet_pure _).within _ g kmalloc d'
    | ok first => exact within_finishWrite.2 (h first d' hr)

/-- The write loop depends on the free clusters only. -/
theorem LoopInside.iff_of_begins {curr prev offset : Nat}
    (hbegin : BeginsWith g d append start curr prev)
    (hfree : freeClusters g d' = available g d append start) :
    LoopInside Q g d' data offset curr prev ↔ LoopInside Q g d data offset curr prev := by
  have happend : append = true → (NoneFree g d' ↔ NoneFree g d) := by
    rintro rfl
    rw [noneFree_iff, noneFree_iff, hfree, available_append]
  cases hbegin with
  | fresh => exact iff_of_true .of_none .of_none
  | empty => exact iff_of_true .of_none .of_none
  | walked =>
      have hnone := happend rfl
      exact ⟨fun h => ⟨fun hlink hfull => h.link hlink (hnone.not.2 hfull), h.sectors⟩,
        fun h => ⟨fun hlink hfull => h.link hlink (hnone.not.1 hfull), h.sectors⟩⟩

/-- Behind the preparation, the write loop must find what it needs, and the slot of the entry counts
when it does not run out of clusters. -/
theorem within_writeTail_iff (hg : g.Valid)
    (hQ : ∀ c lba, g.IsCluster c → g.InCluster c lba → Q lba) {st : WriteState}
    (hfirst : st.bytesWritten = 0) {offset : Nat}
    (hoffset : roundOffset g append found.entry.fileSize st = offset) :
    (writeTail found data append st).Within (writeFence g Q) g kmalloc d ↔
      (0 < data.length → LoopInside Q g d data offset st.currCluster st.prevCluster) ∧
        (Suffices (freeClusters g d) st.prevCluster (asked g data offset st.currCluster) →
          Q found.sector) := by
  have hslot : (∀ first d', Yields ((Fs.loop (writeRound data append found.entry.fileSize) st).run g
      kmalloc (clean d)) (.ok first, clean d') → Q found.sector) ↔
      (Finishes g kmalloc data append found.entry.fileSize d st → Q found.sector) := by
    constructor
    · rintro h ⟨first, io, hok⟩
      obtain ⟨d', rfl⟩ := (regular_writeLoop _ _ _ _).clean_of_yields hok
      exact h first d' hok
    · exact fun h first d' hok => h ⟨first, clean d', hok⟩
  subst hoffset
  rw [within_writeTail, hslot]
  by_cases hne : 0 < data.length
  · rw [within_writeLoop_iff hg (fun _ => Iff.rfl) hQ hfirst hne]
    constructor
    · rintro ⟨hloop, h⟩
      refine ⟨fun _ => hloop, fun hsuffices => h ?_⟩
      exact (writeLoop_finishes_iff hg hfirst fun _ => hloop.link).2 hsuffices
    · rintro ⟨hloop, h⟩
      refine ⟨hloop hne, fun hfinishes => h ?_⟩
      exact (writeLoop_finishes_iff hg hfirst fun hne => (hloop hne).link).1 hfinishes
  · have hb : ¬ st.bytesWritten < data.length := by omega
    rw [and_iff_right (within_writeLoop_done hb d)]
    have hfinishes : Finishes g kmalloc data append found.entry.fileSize d st ↔ _ :=
      writeLoop_finishes_iff hg hfirst fun h => absurd h hne
    rw [hfinishes]
    exact (and_iff_right fun h => absurd h hne).symm

/-- What the preparation leaves to the rest, in terms of the disk in front of it. -/
theorem within_writeTail_begins (hg : g.Valid)
    (hQ : ∀ c lba, g.IsCluster c → g.InCluster c lba → Q lba)
    (hfrees : append = false → FreesInFat g d g.totalClusters found.entry.startingCluster)
    {st : WriteState}
    (hst : Yields ((prepareWrite append found.entry.startingCluster).run g kmalloc (clean d))
      (st, clean d')) :
    (writeTail found data append st).Within (writeFence g Q) g kmalloc d' ↔
      (0 < data.length → LoopInside Q g d data
        (keptSize append found.entry.fileSize % g.clusterBytes) st.currCluster st.prevCluster) ∧
      (Suffices (available g d append found.entry.startingCluster) st.prevCluster
        (asked g data (keptSize append found.entry.fileSize % g.clusterBytes) st.currCluster) →
          Q found.sector) := by
  obtain ⟨hbegin, hfirst, hfree⟩ := prepareWrite_begins hg hfrees hst
  obtain ⟨first, curr, prev, b⟩ := st
  obtain rfl : b = 0 := hfirst
  rw [within_writeTail_iff hg hQ rfl (roundOffset_begin append _ first curr prev), hfree]
  refine and_congr_left' (forall_congr' fun _ => ?_)
  exact LoopInside.iff_of_begins hbegin hfree

/-- **The entry.**  What `fat16_write_file` does with it stays inside exactly when it finds what it
needs. -/
theorem within_writeEntry_iff (hg : g.Valid)
    (hQ : ∀ c lba, g.IsCluster c → g.InCluster c lba → Q lba) :
    (writeEntry found data append).Within (writeFence g Q) g kmalloc d ↔
      (found.entry.isDirectory = false → EntryInside Q g d data append found) := by
  by_cases hdir : found.entry.isDirectory = true
  · have hrun : writeEntry found data append = pure (-eisdir) := if_pos hdir
    rw [hrun]
    exact iff_of_true ((quiet_pure _).within _ g kmalloc d) (by simp [hdir])
  · simp only [Bool.not_eq_true] at hdir
    rw [forall_prop_of_true hdir]
    by_cases hdata : append = false ∧ data.length = 0
    · obtain ⟨rfl, hnil⟩ := hdata
      obtain rfl : data = [] := List.length_eq_zero_iff.1 hnil
      have htotal := total_when (c := 2 ≤ found.entry.startingCluster)
        (total_freeChain found.entry.startingCluster)
      obtain ⟨a, d', hfree⟩ := htotal.runs g kmalloc d
      rw [writeEntry_truncate hdir, htotal.within_bind (hfree 0),
        within_when_freeChain hg fun _ => Iff.rfl, within_updateDir]
      constructor
      · rintro ⟨hfrees, hslot⟩
        exact ⟨fun _ => hfrees, fun h => absurd h (Nat.lt_irrefl 0), fun _ _ _ _ => hslot⟩
      · exact fun h => ⟨h.freed rfl, h.slot 0 0 .fresh (Or.inl rfl)⟩
    · have hregular : ∀ st, (writeTail found data append st).Regular :=
        regular_writeTail found data append
      rw [writeEntry_write hdir hdata, within_bind (regular_prepareWrite _ _) hregular,
        within_prepareWrite hg]
      constructor
      · rintro ⟨hfrees, htail⟩
        have hbegins : ∀ curr prev,
            BeginsWith g d append found.entry.startingCluster curr prev → ∃ st d₁,
              (writeTail found data append st).Within (writeFence g Q) g kmalloc d₁ ∧
              Yields ((prepareWrite append found.entry.startingCluster).run g kmalloc (clean d))
                (st, clean d₁) ∧ st.currCluster = curr ∧ st.prevCluster = prev := by
          intro curr prev hbegin
          obtain ⟨st, d₁, hst⟩ := hbegin.yields kmalloc
          obtain ⟨hcurr, hprev⟩ := (prepareWrite_begins hg hfrees hst).1.unique hbegin
          exact ⟨st, d₁, htail st d₁ hst, hst, hcurr, hprev⟩
        refine ⟨hfrees, fun hne curr prev hbegin => ?_, fun curr prev hbegin => ?_⟩
        · obtain ⟨st, d₁, hwithin, hst, rfl, rfl⟩ := hbegins curr prev hbegin
          exact ((within_writeTail_begins hg hQ hfrees hst).1 hwithin).1 hne
        · obtain ⟨st, d₁, hwithin, hst, rfl, rfl⟩ := hbegins curr prev hbegin
          exact ((within_writeTail_begins hg hQ hfrees hst).1 hwithin).2
      · intro h
        refine ⟨h.freed, fun st d₁ hst => ?_⟩
        have hbegin := (prepareWrite_begins hg h.freed hst).1
        exact (within_writeTail_begins hg hQ h.freed hst).2
          ⟨fun hne => h.loop hne _ _ hbegin, h.slot _ _ hbegin⟩

end Entry

/-! ## The calls -/

/-- The calls that rewrite an entry of the volume. -/
inductive Rewrite where
  | deleteFile (path : List UInt8)
  | removeDirectory (path : List UInt8)
  | writeFile (path data : List UInt8) (append : Bool)

/-- The code a call returns. -/
def Rewrite.run : Rewrite → Fs Int
  | .deleteFile path => Fat16.deleteFile path
  | .removeDirectory path => Fat16.removeDirectory path
  | .writeFile path data append => Fat16.writeFile path data append

/-- The path a call is made with. -/
def Rewrite.path : Rewrite → List UInt8
  | .deleteFile path => path
  | .removeDirectory path => path
  | .writeFile path _ _ => path

/-- A sector that a call may write: one of the FAT, of the directory its path leads to, or of a
data cluster. -/
def Allowed (g : Geometry) (d : Disk) (path : List UInt8) (lba : Nat) : Prop :=
  g.InFat lba ∨ (∃ D name, LeadsTo g d path D name ∧ InDirectory g d D lba) ∨
    ∃ c, g.IsCluster c ∧ g.InCluster c lba

/-- Every sector that the call writes is allowed, and every FAT entry that it writes is written
in the FAT. -/
def Rewrite.Contained (g : Geometry) (kmalloc : Nat → Option (Nat → UInt8)) (d : Disk)
    (op : Rewrite) : Prop :=
  op.run.Within (writeFence g (Allowed g d op.path)) g kmalloc d

/-- The links and slots that the call meets lead to no other sectors. -/
def Rewrite.Inside (g : Geometry) (d : Disk) : Rewrite → Prop
  | .deleteFile path => ∀ D name found, LeadsTo g d path D name →
      Looks g d D name (some found) → found.entry.isDirectory = false →
      0 < found.sector ∧ FreesInFat g d g.totalClusters found.entry.startingCluster
  | .removeDirectory path => ∀ D name found, LeadsTo g d path D name →
      Looks g d D name (some found) → found.entry.isDirectory = true →
      (∃ r, Iterates g d emptyCheckCallback found.entry.startingCluster 0 r ∧ r.2 = 0) →
      0 < found.sector ∧ FreesInFat g d g.totalClusters found.entry.startingCluster
  | .writeFile path data append => ∀ D name, LeadsTo g d path D name →
      (∀ found, Looks g d D name (some found) → found.entry.isDirectory = false →
        EntryInside (Allowed g d path) g d data append found) ∧
      (Looks g d D name none →
        (ShortNameEnds g d D name → ∀ r,
          Iterates g d (slotSearchCallback (lfnCount name + 1)) D SlotCtx.zero r →
          r.2.done = true → ∀ j ≤ (r.2.startSlot + (lfnCount name + 1)) / 16,
            Allowed g d path (r.2.startSector + j)) ∧
        -- the new file is looked up once more, on the disk with its entry
        ∀ d', WithEntry g d D name d' → ∀ found, Looks g d' D name (some found) →
          found.entry.isDirectory = false → EntryInside (Allowed g d path) g d' data append found)

section Calls

variable {path : List UInt8} {D : Nat} {name : Name} {found : Found} {Q : Nat → Prop}

theorem allowed_cluster (c lba : Nat) (hc : g.IsCluster c) (hlba : g.InCluster c lba) :
    Allowed g d path lba := Or.inr (Or.inr ⟨c, hc, hlba⟩)

/-- The entry that a lookup finds is in an allowed sector, unless it is the flag behind the
long-name buffer that has been found. -/
theorem Looks.allowed_iff (hboot : 0 < g.fatStartSector) (hlead : LeadsTo g d path D name)
    (h : Looks g d D name (some found)) : Allowed g d path found.sector ↔ 0 < found.sector := by
  have hroot := g.rootDirSector_eq
  have hdata := g.dataStartSector_eq
  constructor
  · rintro (⟨hlow, -⟩ | ⟨D', -, -, ⟨-, hlow, -⟩ | ⟨c, -, hlow, -⟩⟩ | ⟨c, -, hlow, -⟩)
    · omega
    · omega
    · unfold Geometry.clusterLba at hlow
      omega
    · unfold Geometry.clusterLba at hlow
      omega
  · intro hpos
    cases h.foundIn with
    | flag => exact absurd hpos (Nat.lt_irrefl 0)
    | entry hslot _ => exact Or.inr (Or.inl ⟨D, name, hlead, hslot.mem⟩)

/-- A call that looks the last component of its path up stays inside when the rest of it
does. -/
theorem within_onEntry {β : Type} {refuse : Int → β} {site : Site}
    {f : Nat → Name → Option Found → Fs β} (hf : ∀ D name r, (f D name r).Regular) :
    (onEntry path refuse site f).Within P g kmalloc d ↔ ∀ D name found,
      LeadsTo g d path D name → Looks g d D name found → (f D name found).Within P g kmalloc d := by
  refine ((quiet_resolvePath path).within_bind (regular_afterPath hf)).trans ?_
  constructor
  · intro h D name found hlead hlooks
    have hresolve : Yields ((resolvePath path).run g kmalloc (clean d)) (.ok (D, name), clean d) := by
      rw [resolvePath_eq]
      exact hlead.yields rfl hlooks (Nat.le_refl _)
    have hfind := h _ d hresolve
    rw [(quiet_findInDir site D name).within_bind (hf D name)] at hfind
    exact hfind found d ((yields_findInDir site).2 ⟨hlooks, rfl⟩)
  · intro h r d₁ hr
    obtain ⟨hio, hlead⟩ := yields_resolvePath hr
    obtain rfl : d₁ = d := congrArg Io.disk hio
    cases r with
    | error res => exact (quiet_pure _).within P g kmalloc d₁
    | ok q =>
        rw [(quiet_findInDir site q.1 q.2).within_bind (hf q.1 q.2)]
        intro found d₂ hfound
        obtain ⟨hlooks, hio⟩ := (yields_findInDir site).1 hfound
        obtain rfl : d₂ = d₁ := congrArg Io.disk hio
        exact h q.1 q.2 found ((hlead q.1 q.2).2 rfl) hlooks

/-- A chain is freed and its entry marked as deleted. -/
theorem within_removal {x : Fs Unit} (hx : x.Total)
    (hfree : x.Within (writeFence g Q) g kmalloc d ↔
      FreesInFat g d g.totalClusters found.entry.startingCluster) :
    (x >>= fun _ => markDeleted found).Within (writeFence g Q) g kmalloc d ↔
      Q found.sector ∧ FreesInFat g d g.totalClusters found.entry.startingCluster := by
  obtain ⟨a, d', hrun⟩ := hx.runs g kmalloc d
  rw [hx.within_bind (hrun 0), hfree, within_markDeleted, and_comm]
  rfl

theorem within_deleteFile (hg : g.Valid) (hboot : 0 < g.fatStartSector) :
    (deleteFile path).Within (writeFence g (Allowed g d path)) g kmalloc d ↔
      (Rewrite.deleteFile path).Inside g d := by
  rw [deleteFile_eq, within_onEntry fun _ _ r => (total_deleteFound r).regular]
  have hfound : ∀ found, (deleteFound (some found)).Within (writeFence g (Allowed g d path)) g
      kmalloc d ↔ (found.entry.isDirectory = false → Allowed g d path found.sector ∧
        FreesInFat g d g.totalClusters found.entry.startingCluster) := by
    intro found
    by_cases hdir : found.entry.isDirectory = true
    · rw [deleteFound, if_pos hdir]
      exact iff_of_true ((quiet_pure _).within _ g kmalloc d) (by simp [hdir])
    · rw [deleteFound, if_neg hdir]
      simp only [Bool.not_eq_true] at hdir
      refine (within_removal (total_when (total_freeChain _))
        (within_when_freeChain hg (fun _ => Iff.rfl) _ d)).trans ?_
      simp [hdir]
  constructor
  · intro h D name found hlead hlooks hdir
    obtain ⟨hsector, hchain⟩ := (hfound found).1 (h D name (some found) hlead hlooks) hdir
    exact ⟨(hlooks.allowed_iff hboot hlead).1 hsector, hchain⟩
  · intro h D name found hlead hlooks
    cases found with
    | none => exact (quiet_pure _).within _ g kmalloc d
    | some found =>
        refine (hfound found).2 fun hdir => ?_
        obtain ⟨hsector, hchain⟩ := h D name found hlead hlooks hdir
        exact ⟨(hlooks.allowed_iff hboot hlead).2 hsector, hchain⟩

theorem within_removeDirectory (hg : g.Valid) (hboot : 0 < g.fatStartSector) :
    (removeDirectory path).Within (writeFence g (Allowed g d path)) g kmalloc d ↔
      (Rewrite.removeDirectory path).Inside g d := by
  rw [removeDirectory_eq, within_onEntry fun _ _ => regular_removeFound]
  have hfound : ∀ found, (removeFound (some found)).Within (writeFence g (Allowed g d path)) g
      kmalloc d ↔ (found.entry.isDirectory = true →
        (∃ r, Iterates g d emptyCheckCallback found.entry.startingCluster 0 r ∧ r.2 = 0) →
        Allowed g d path found.sector ∧
          FreesInFat g d g.totalClusters found.entry.startingCluster) := by
    intro found
    by_cases hdir : found.entry.isDirectory = true
    · rw [removeFound, if_pos hdir, (quiet_iterateDirectory _ _ _ _).within_bind
        fun r => (total_removeTail found r).regular]
      have htail : ∀ r : Int × Nat, r.2 = 0 →
          ((if 0 < r.2 then pure (-enotempty) else do
              freeChain found.entry.startingCluster
              markDeleted found : Fs Int).Within (writeFence g (Allowed g d path)) g kmalloc d ↔
            Allowed g d path found.sector ∧
              FreesInFat g d g.totalClusters found.entry.startingCluster) := by
        intro r hr
        rw [if_neg (by omega)]
        exact within_removal (total_freeChain _) (within_freeChain hg (fun _ => Iff.rfl) _ d)
      constructor
      · rintro h - ⟨r, hiter, hr⟩
        exact (htail r hr).1 (h r d ((yields_iterateDirectory _).2 ⟨hiter, rfl⟩))
      · intro h r d₁ hr
        obtain ⟨hiter, hio⟩ := (yields_iterateDirectory _).1 hr
        obtain rfl : d₁ = d := congrArg Io.disk hio
        by_cases hfull : 0 < r.2
        · rw [if_pos hfull]
          exact (quiet_pure _).within _ g kmalloc d₁
        · have hempty : r.2 = 0 := by omega
          exact (htail r hempty).2 (h hdir ⟨r, hiter, hempty⟩)
    · rw [removeFound, if_neg hdir]
      exact iff_of_true ((quiet_pure _).within _ g kmalloc d) fun h => absurd h hdir
  constructor
  · intro h D name found hlead hlooks hdir hempty
    obtain ⟨hsector, hchain⟩ := (hfound found).1 (h D name (some found) hlead hlooks) hdir hempty
    exact ⟨(hlooks.allowed_iff hboot hlead).1 hsector, hchain⟩
  · intro h D name found hlead hlooks
    cases found with
    | none => exact (quiet_pure _).within _ g kmalloc d
    | some found =>
        refine (hfound found).2 fun hdir hempty => ?_
        obtain ⟨hsector, hchain⟩ := h D name found hlead hlooks hdir hempty
        exact ⟨(hlooks.allowed_iff hboot hlead).2 hsector, hchain⟩

/-! ### A new entry -/

/-- The records of a new entry are written to the slots that the search has found, up to the
sector behind them. -/
theorem within_insertEntry {attributes : UInt8} {cluster size : Nat} :
    (insertEntry D name attributes cluster size).Within P g kmalloc d ↔
      (ShortNameEnds g d D name → ∀ r,
        Iterates g d (slotSearchCallback (lfnCount name + 1)) D SlotCtx.zero r → r.2.done = true →
        ∀ j ≤ (r.2.startSlot + (lfnCount name + 1)) / 16, P .records (r.2.startSector + j)) := by
  have hrecords : ∀ (r : Int × SlotCtx) (sfn : List UInt8),
      Iterates g d (slotSearchCallback (lfnCount name + 1)) D SlotCtx.zero r →
      ((insertRecords name attributes cluster size sfn r.2).Within P g kmalloc d ↔
        (r.2.done = true → ∀ j ≤ (r.2.startSlot + (lfnCount name + 1)) / 16,
          P .records (r.2.startSector + j))) := by
    intro r sfn hiter
    by_cases hdone : r.2.done = true
    · rw [insertRecords, if_pos hdone, within_read_bind,
        within_writeRecords _ _ _ (hiter.freeSlot hdone).mem.slot_lt, length_newRecords]
      simp [hdone]
    · rw [insertRecords, if_neg hdone]
      exact iff_of_true ((quiet_pure _).within P g kmalloc d) fun h => absurd h hdone
  rw [insertEntry_eq, (quiet_shortNameLoop D name 1).within_bind
    (regular_insertSlots D name attributes cluster size)]
  constructor
  · rintro h ⟨a, hfree⟩ r hiter
    have hslots := h _ d (yields_shortNameLoop.2 ⟨a, hfree, rfl⟩)
    rw [(quiet_iterateDirectory _ _ _ _).within_bind fun r => regular_insertRecords _ _ _ _ _ r.2]
      at hslots
    exact (hrecords r _ hiter).1 (hslots r d ((yields_iterateDirectory _).2 ⟨hiter, rfl⟩))
  · intro h sfn d₁ hsfn
    obtain ⟨a, hfree, heq⟩ := yields_shortNameLoop.1 hsfn
    obtain rfl : d₁ = d := congrArg Io.disk (Prod.mk.inj heq).2
    rw [(quiet_iterateDirectory _ _ _ _).within_bind fun r => regular_insertRecords _ _ _ _ _ r.2]
    intro r d₂ hr
    obtain ⟨hiter, hio⟩ := (yields_iterateDirectory _).1 hr
    obtain rfl : d₂ = d₁ := congrArg Io.disk hio
    exact (hrecords r sfn hiter).2 (h ⟨a, hfree⟩ r hiter)

/-- Behind the insertion, the new file is looked up and written. -/
theorem within_writeAgain {data : List UInt8} {append : Bool} :
    Fs.Within P (do
      match ← findInDir .target D name with
      | none => pure (-enoent)
      | some found => writeEntry found data append) g kmalloc d ↔
    ∀ found, Looks g d D name (some found) →
      (writeEntry found data append).Within P g kmalloc d := by
  refine ((quiet_findInDir .target D name).within_bind (regular_writeAgain data append)).trans ?_
  constructor
  · intro h found hlooks
    exact h (some found) d ((yields_findInDir _).2 ⟨hlooks, rfl⟩)
  · intro h found d₁ hfound
    obtain ⟨hlooks, hio⟩ := (yields_findInDir _).1 hfound
    obtain rfl : d₁ = d := congrArg Io.disk hio
    cases found with
    | none => exact (quiet_pure _).within P g kmalloc d₁
    | some found => exact h found hlooks

theorem within_writeNew {data : List UInt8} {append : Bool} :
    (writeFound data append D name none).Within P g kmalloc d ↔
      (insertEntry D name attrArchive 0 0).Within P g kmalloc d ∧
        ∀ d', WithEntry g d D name d' → ∀ found, Looks g d' D name (some found) →
          (writeEntry found data append).Within P g kmalloc d' := by
  refine (within_bind (regular_insertEntry D name attrArchive 0 0)
    (regular_writeNew data append D name)).trans (and_congr_right fun _ => ?_)
  constructor
  · intro h d' hwith
    exact within_writeAgain.1 (h eok d' (hwith.yields kmalloc))
  · intro h res d' hres
    obtain ⟨a, r, hfree, hiter, hp⟩ := yields_insertEntry.1 hres
    by_cases hdone : r.2.done = true
    · rw [if_pos hdone] at hp
      obtain ⟨rfl, hio⟩ := Prod.mk.inj hp
      have hwith : WithEntry g d D name d' :=
        ⟨a, r, hfree, hiter, hdone, congrArg Io.disk hio⟩
      exact within_writeAgain.2 (h d' hwith)
    · rw [if_neg hdone] at hp
      obtain ⟨rfl, -⟩ := Prod.mk.inj hp
      exact (quiet_pure _).within P g kmalloc d'

variable {data : List UInt8} {append : Bool}

theorem within_writeFile (hg : g.Valid) :
    (writeFile path data append).Within (writeFence g (Allowed g d path)) g kmalloc d ↔
      (Rewrite.writeFile path data append).Inside g d := by
  have hentry : ∀ d' found, (writeEntry found data append).Within
      (writeFence g (Allowed g d path)) g kmalloc d' ↔ _ :=
    fun d' found => within_writeEntry_iff (d := d') hg allowed_cluster
  rw [writeFile_eq, within_onEntry (regular_writeFound data append)]
  constructor
  · intro h D name hlead
    refine ⟨fun found hlooks => ?_, fun hlooks => ?_⟩
    · exact (hentry d found).1 (h D name (some found) hlead hlooks)
    · obtain ⟨hinsert, hagain⟩ := within_writeNew.1 (h D name none hlead hlooks)
      refine ⟨within_insertEntry.1 hinsert, fun d' hwith found hfound => ?_⟩
      exact (hentry d' found).1 (hagain d' hwith found hfound)
  · intro h D name found hlead hlooks
    obtain ⟨hfound, hnew⟩ := h D name hlead
    cases found with
    | some found => exact (hentry d found).2 (hfound found hlooks)
    | none =>
        obtain ⟨hslots, hagain⟩ := hnew hlooks
        refine within_writeNew.2 ⟨within_insertEntry.2 hslots, fun d' hwith found hfound => ?_⟩
        exact (hentry d' found).2 (hagain d' hwith found hfound)

end Calls

/-- **Containment.**  Whatever the FAT and the directories hold, a call writes only sectors it may
write exactly when the links and slots it follows stay inside the volume. -/
theorem contained_iff_inside (hg : g.Valid) (hboot : 0 < g.fatStartSector) (op : Rewrite) :
    op.Contained g kmalloc d ↔ op.Inside g d := by
  cases op with
  | deleteFile path => exact within_deleteFile hg hboot
  | removeDirectory path => exact within_removeDirectory hg hboot
  | writeFile path data append => exact within_writeFile hg

/-! ## Links that leave the volume -/

/-- The root holds one entry, the file `D` of one byte in cluster 2; the FAT links this cluster to
`next`. -/
def linkDisk (g : Geometry) (next : Nat) : Disk := fun lba =>
  if lba = g.fatStartSector then setU16 (fun _ => 0) 4 next
  else if lba = g.rootDirSector then
    setRecord (fun _ => 0) 0 (sfnRecord (padTo 11 [0x44]) attrArchive 2 1)
  else fun _ => 0

theorem leadsTo_D (g : Geometry) (d : Disk) : LeadsTo g d [0x2F, 0x44] 0 [0x44] :=
  .last (by decide) (by decide) (by decide) (by decide)

/-- A byte is appended to the file `D`, whose chain ends at cluster 2. -/
theorem contained_iff_inside_append :
    (Rewrite.writeFile [0x2F, 0x44] [0x41] true).Inside wideGeometry
        (linkDisk wideGeometry 0xFFFF) ∧
      (Rewrite.writeFile [0x2F, 0x44] [0x41] true).Contained wideGeometry (fun _ => none)
        (linkDisk wideGeometry 0xFFFF) := by
  have hlooks : Looks wideGeometry (linkDisk wideGeometry 0xFFFF) 0 [0x44] _ :=
    looks_first (by decide) ⟨by decide, by decide, by decide⟩ (by decide)
  have hinside : (Rewrite.writeFile [0x2F, 0x44] [0x41] true).Inside wideGeometry
      (linkDisk wideGeometry 0xFFFF) := by
    intro D name hlead
    obtain ⟨rfl, rfl⟩ := (leadsTo_D _ _).unique hlooks hlead
    refine ⟨fun found hfound _ => ?_, fun hnone => absurd (hlooks.unique hnone) (by simp)⟩
    obtain rfl := Option.some.inj (hlooks.unique hfound)
    have hbegins : ∀ curr prev, BeginsWith wideGeometry (linkDisk wideGeometry 0xFFFF) true 2 curr
        prev → curr = 2 ∧ prev = 2 := fun curr prev hbegin =>
      hbegin.unique (.walked (Nat.le_refl 2) (.last (by decide) (by decide)))
    refine ⟨by simp, fun _ curr prev hbegin => ?_, fun _ _ _ _ => ?_⟩
    · obtain ⟨rfl, rfl⟩ := hbegins curr prev hbegin
      refine ⟨fun _ _ _ => by decide, fun _ _ s hs _ => ?_⟩
      obtain rfl : s = 0 := Nat.lt_one_iff.1 hs
      exact allowed_cluster 2 _ ⟨by decide, by decide⟩ ⟨by decide, by decide⟩
    · exact (hlooks.allowed_iff (by decide) (leadsTo_D _ _)).2 (by decide)
  exact ⟨hinside, (contained_iff_inside ⟨by decide, by decide, by decide⟩ (by decide) _).2
    hinside⟩

/-- **A stray link.**  The FAT is one sector and links cluster 2 of the file `D` to 1536: to
delete the file, entry 1536 is cleared in sector 7, which is behind the last sector of the
volume. -/
theorem stray_link_not_contained :
    ¬ (Rewrite.deleteFile [0x2F, 0x44]).Contained tinyGeometry (fun _ => none)
      (linkDisk tinyGeometry 1536) := by
  intro h
  have hiff : (deleteFile [0x2F, 0x44]).Within _ tinyGeometry (fun _ => none)
      (linkDisk tinyGeometry 1536) ↔ _ := within_deleteFile ⟨by decide, by decide, by decide⟩ (by decide)
  have hlooks : Looks tinyGeometry (linkDisk tinyGeometry 1536) 0 [0x44] _ :=
    looks_first (by decide) ⟨by decide, by decide, by decide⟩ (by decide)
  obtain ⟨-, hfrees⟩ := hiff.1 h 0 [0x44] _ (leadsTo_D _ _) hlooks (by decide)
  have hfreeable : ∀ j ≤ 1, Freeable ((fat tinyGeometry (linkDisk tinyGeometry 1536))^[j] 2) := by
    decide
  exact absurd (hfrees 1 (by decide) hfreeable) (by decide)

end Fat16

end BenmoshOS
