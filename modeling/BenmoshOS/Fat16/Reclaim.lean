import BenmoshOS.Fat16.Footprint
import BenmoshOS.Fat16.Operations
import BenmoshOS.Fat16.Paths

/-!
# FAT16: the slots a name takes and gives back

A new entry takes a run of free slots: the records of its long name and behind them its 8.3
record.  Its removal finds the 8.3 record only and writes one tombstone.  On every volume, for
files and for directories, the records of the long name stay where they are.

* `DirSlot` — the slots of a directory, through all of its clusters.
* `Iterates.invariant` — the invariant rule for walks through a directory.
* `Cycle` — a name is created and removed again; `GivesSlotsBack` — every slot that was free
  before is free again.
* `cycle_loses_slot` — no cycle gives its slots back.
-/

namespace BenmoshOS

namespace Fat16

open Exec (Yields Halts)
open Fs

variable {g : Geometry} {d d' d₁ d₂ : Disk} {kmalloc : Nat → Option (Nat → UInt8)}
  {D : Nat} {name : Name} {path : List UInt8}

/-! ## The slots of a directory -/

/-- The clusters of a directory, in which a walk goes on. -/
inductive DirCluster (g : Geometry) (d : Disk) (D : Nat) : Nat → Prop
  | head (hlive : Live D) : DirCluster g d D D
  | next {c : Nat} (hc : DirCluster g d D c) (hlive : Live (fat g d c)) :
      DirCluster g d D (fat g d c)

/-- Sector `lba` is one of directory `D`. -/
def InDirectory (g : Geometry) (d : Disk) (D lba : Nat) : Prop :=
  (D = 0 ∧ g.rootDirSector ≤ lba ∧ lba < g.rootDirSector + g.rootDirSizeSectors) ∨
    ∃ c, DirCluster g d D c ∧ g.InCluster c lba

/-- Slot `slot` of sector `sector` is one of directory `D`. -/
structure DirSlot (g : Geometry) (d : Disk) (D sector slot : Nat) : Prop where
  slot_lt : slot < 16
  mem : InDirectory g d D sector

theorem DirSlot.rootDirSector_le {sector slot : Nat} (h : DirSlot g d D sector slot) :
    g.rootDirSector ≤ sector := by
  have hdata := g.dataStartSector_eq
  rcases h.mem with ⟨-, hle, -⟩ | ⟨c, -, hle, -⟩
  · exact hle
  · unfold Geometry.clusterLba at hle
    omega

section Invariant

variable {κ : Type} {callback : Visitor κ} {I : κ → Prop} {context : κ}

theorem visitList_invariant {base p n : Nat} (hI : I context)
    (hstep : ∀ q ctx, p ≤ q → q < p + n → I ctx →
      I (callback (base + q / 16) (q % 16) (slotAt d base q) ctx).2) :
    I (visitList callback base (slots d base p n) p context).2 := by
  induction n generalizing p context with
  | zero => exact hI
  | succ n ih =>
      have hnext := hstep p context (Nat.le_refl p) (by omega) hI
      rw [slots_succ, visitList]
      split
      · exact hnext
      · split
        · exact hnext
        · exact ih hnext fun q ctx hq hlt => hstep q ctx (by omega) (by omega)

/-- **Walks.**  What holds before a walk through a directory and is kept by the visitor in
every slot of the directory holds after it. -/
theorem Iterates.invariant {r : Int × κ} (h : Iterates g d callback D context r) (hI : I context)
    (hstep : ∀ sector slot ctx, DirSlot g d D sector slot → I ctx →
      I (callback sector slot (recordAt (d sector) slot) ctx).2) : I r.2 := by
  obtain ⟨n, h⟩ := h
  rw [iterate] at h
  by_cases hD : D = 0
  · rw [if_pos hD] at h
    rw [← Option.some.inj h]
    apply visitList_invariant hI
    intro q ctx _ hlt
    exact hstep _ _ ctx ⟨Nat.mod_lt _ (by omega), Or.inl ⟨hD, by omega, by omega⟩⟩
  · rw [if_neg hD] at h
    -- from every cluster of the directory on
    suffices hwalk : ∀ n p, (Live p.1 → DirCluster g d D p.1) → I p.2 →
        walk g d callback n p = some r → I r.2 from hwalk n (D, context) .head hI h
    intro n
    induction n with
    | zero => exact fun _ _ _ h => absurd h (by simp [walk])
    | succ n ih =>
        intro p hp hIp h
        rw [walk, walkStep] at h
        by_cases hlive : Live p.1
        · rw [if_pos hlive] at h
          have hvisit : I (visitAt g d callback p.1 p.2).2 := by
            apply visitList_invariant hIp
            intro q ctx _ hlt
            exact hstep _ _ ctx ⟨Nat.mod_lt _ (by omega),
              Or.inr ⟨p.1, hp hlive, by omega, by omega⟩⟩
          generalize visitAt g d callback p.1 p.2 = v at h hvisit
          obtain ⟨status, ctx⟩ := v
          cases status with
          | some status =>
              rw [← Option.some.inj h]
              exact hvisit
          | none => exact ih _ (fun hnext => .next (hp hlive) hnext) hvisit h
        · rw [if_neg hlive] at h
          rw [← Option.some.inj h]
          exact hIp

end Invariant

/-! ## What the searches find -/

/-- A slot that an insertion may use. -/
structure FreeSlot (g : Geometry) (d : Disk) (D sector slot : Nat) : Prop where
  mem : DirSlot g d D sector slot
  free : (recordAt (d sector) slot).IsFree

/-- **Slot search.**  The slot it ends with is a free one of the directory. -/
theorem Iterates.freeSlot {n : Nat} {r : Int × SlotCtx}
    (h : Iterates g d (slotSearchCallback n) D SlotCtx.zero r) (hdone : r.2.done = true) :
    FreeSlot g d D r.2.startSector r.2.startSlot := by
  have hinv := h.invariant (I := fun ctx => 0 < ctx.consecutiveFound ∨ ctx.done = true →
    FreeSlot g d D ctx.startSector ctx.startSlot) (by simp [SlotCtx.zero]) ?_
  · exact hinv (Or.inr hdone)
  · intro sector slot ctx hslot hI
    by_cases hfree : (recordAt (d sector) slot).IsFree
    · have hcall : (slotSearchCallback n sector slot (recordAt (d sector) slot) ctx).2.startSector =
          (if ctx.consecutiveFound = 0 then sector else ctx.startSector) ∧
          (slotSearchCallback n sector slot (recordAt (d sector) slot) ctx).2.startSlot =
            if ctx.consecutiveFound = 0 then slot else ctx.startSlot := by
        have hfree' : recordAt (d sector) slot 0 = 0x00 ∨ recordAt (d sector) slot 0 = 0xE5 := hfree
        rw [slotSearchCallback, if_pos hfree']
        by_cases hzero : ctx.consecutiveFound = 0
        · simp only [if_pos hzero]
          split <;> exact ⟨rfl, rfl⟩
        · simp only [if_neg hzero]
          split <;> exact ⟨rfl, rfl⟩
      rw [hcall.1, hcall.2]
      intro _
      by_cases hzero : ctx.consecutiveFound = 0
      · rw [if_pos hzero, if_pos hzero]
        exact ⟨hslot, hfree⟩
      · rw [if_neg hzero, if_neg hzero]
        exact hI (Or.inl (by omega))
    · have hcall : slotSearchCallback n sector slot (recordAt (d sector) slot) ctx =
          (0, { ctx with consecutiveFound := 0 }) := if_neg hfree
      rw [hcall]
      rintro (hpos | hdone)
      · exact absurd hpos (Nat.lt_irrefl 0)
      · exact hI (Or.inr hdone)

/-- What a lookup finds: a record of the directory that is no part of a long name, or nothing
but the flag behind the long-name buffer. -/
inductive FoundIn (g : Geometry) (d : Disk) (D : Nat) : Found → Prop
  | flag : FoundIn g d D FindCtx.zero.out
  | entry {sector slot : Nat} (hslot : DirSlot g d D sector slot)
      (hlfn : (recordAt (d sector) slot).attributes ≠ attrLfn) :
      FoundIn g d D ⟨recordAt (d sector) slot, sector, slot⟩

theorem Looks.foundIn {found : Found} (h : Looks g d D name (some found)) :
    FoundIn g d D found := by
  obtain ⟨r, hiter, hfound⟩ := h
  have hinv := hiter.invariant (I := fun ctx => FoundIn g d D ctx.out) .flag ?_
  · split at hfound
    · rwa [Option.some.inj hfound] at hinv
    · exact absurd hfound (by simp)
  · intro sector slot ctx hslot hI
    unfold findFileCallback
    split
    · exact hI
    · split
      · exact hI
      · split
        · exact hI
        · rename_i hlfn
          split
          · split
            · exact .entry hslot hlfn
            · exact hI
          · exact hI

/-! ## What an insertion takes -/

/-- The write loop writes one record behind the other. -/
theorem streamed_putRecords (g : Geometry) (records : List Record) (base p : Nat) (d : Disk) :
    streamed records (base + p / 16) (d (base + p / 16)) (p % 16) d =
      putRecords d base p records := by
  have hput : writeRecords records (base + p / 16) (d (base + p / 16)) (p % 16)
      ⟨g, 0, fun _ => none⟩ (clean d) = _ := writeRecords_clean base records p d (d (base + p / 16))
  rw [writeRecords_streamed, Disk.set_get] at hput
  exact congrArg Io.disk (Prod.mk.inj (Exec.ret.inj hput)).2

theorem streamed_eq (g : Geometry) (records : List Record) {sec slot : Nat} (hslot : slot < 16)
    (d : Disk) : streamed records sec (d sec) slot d = putRecords d sec slot records := by
  have hput := streamed_putRecords g records sec slot d
  rwa [Nat.div_eq_of_lt hslot, Nat.add_zero, Nat.mod_eq_of_lt hslot] at hput

/-- The first record of a new entry is a fragment of its long name. -/
theorem newRecords_head (hname : name ≠ []) (sfn : List UInt8) (attributes : UInt8)
    (cluster size : Nat) : ∃ records, newRecords name sfn attributes cluster size =
      lfnRecord name (lfnChecksum sfn) (lfnCount name) true :: records := by
  have hpos := List.length_pos_of_ne_nil hname
  obtain ⟨n, hn⟩ : ∃ n, lfnCount name = n + 1 :=
    ⟨lfnCount name - 1, by unfold lfnCount; omega⟩
  rw [newRecords, hn, List.range_succ_eq_map, List.map_cons, List.cons_append]
  exact ⟨_, rfl⟩

/-- **Insertion.**  A fragment of the long name has been written to a slot that was free. -/
theorem insertEntry_takes {attributes : UInt8} {cluster size : Nat} (hname : name ≠ [])
    (hlen : name.length ≤ 255)
    (h : Yields ((insertEntry D name attributes cluster size).run g kmalloc (clean d))
      (eok, clean d₁)) :
    ∃ sector slot, FreeSlot g d D sector slot ∧ (recordAt (d₁ sector) slot).IsLfn := by
  obtain ⟨a, r, -, hiter, hp⟩ := yields_insertEntry.1 h
  by_cases hdone : r.2.done = true
  · rw [if_pos hdone] at hp
    obtain rfl : d₁ = _ := congrArg Io.disk (Prod.mk.inj hp).2
    have hfree := hiter.freeSlot hdone
    have hslot := hfree.mem.slot_lt
    have hclipped : ∀ r ∈ newRecords name (generateShortName name a) attributes cluster size,
        r.Clipped := clipped_newRecords (length_generateShortName name a)
    have hread := slots_putRecords_self d r.2.startSector r.2.startSlot hclipped
    obtain ⟨records, hrecords⟩ := newRecords_head hname (generateShortName name a) attributes
      cluster size
    rw [hrecords, List.length_cons, slots_succ] at hread
    have hfirst := (List.cons.inj hread).1
    rw [slotAt, Nat.div_eq_of_lt hslot, Nat.add_zero, Nat.mod_eq_of_lt hslot] at hfirst
    refine ⟨_, _, hfree, ?_⟩
    show (recordAt (streamed _ _ _ _ _ _) _).IsLfn
    rw [streamed_eq g _ hslot, hrecords, hfirst]
    have hpos := List.length_pos_of_ne_nil hname
    exact isLfn_lfnRecord _ _ _ (by unfold lfnCount; omega) (lfnCount_le hlen)
  · rw [if_neg hdone] at hp
    exact absurd (Prod.mk.inj hp).1 (by decide)

/-! ## What a removal gives back -/

/-- The clusters that are freed lose their FAT entries; nothing else changes. -/
theorem freeFrom_frame (hg : g.Valid) (kmalloc : Nat → Option (Nat → UInt8)) : ∀ {n curr : Nat}
    {d : Disk}, FreesInFat g d n curr →
    ∃ d', (∀ fuel, (freeFrom n curr).run g kmalloc (clean d) fuel = .ret ((), clean d')) ∧
      (∀ lba, g.rootDirSector ≤ lba → d' lba = d lba) ∧
      ∀ a < 256 * g.sectorsPerFat, fat g d' a = if Freed g d n curr a then 0 else fat g d a := by
  intro n
  induction n with
  | zero =>
      refine fun {_ d} _ => ⟨d, fun _ => rfl, fun _ _ => rfl, fun a _ => (if_neg ?_).symm⟩
      rintro ⟨k, hk, -⟩
      exact absurd hk (Nat.not_lt_zero k)
  | succ n ih =>
      intro curr d h
      by_cases hgo : Freeable curr
      · have hcurr : curr < 256 * g.sectorsPerFat :=
          h 0 (by omega) fun j hj => by rwa [Nat.le_zero.1 hj]
        obtain ⟨d', hrun, hframe, hfat⟩ := ih (h.freed hg hgo)
        refine ⟨d', fun fuel => ?_, fun lba hlba => ?_, fun a ha => ?_⟩
        · have hstep : freeFrom (n + 1) curr = readFatEntry .freeWalk curr >>= fun next =>
              writeFatEntry curr 0 >>= fun _ => freeFrom n next := if_pos hgo
          rw [hstep, Fs.run]
          simp only [Fs.bind_apply, readFatEntry_clean, writeFatEntry_clean, Exec.ret_bind]
          exact hrun fuel
        · rw [hframe lba hlba, setFat_of_le hcurr hlba]
        · rw [hfat a ha, fat_setFat hg hcurr ha (by omega)]
          simp only [h.freed_succ_iff hg hgo]
          by_cases hac : a = curr
          · simp [hac]
          · simp [hac]
      · have hstop : freeFrom (n + 1) curr = pure () := if_neg hgo
        rw [hstop]
        refine ⟨d, fun _ => rfl, fun _ _ => rfl, fun a _ => (if_neg ?_).symm⟩
        rintro ⟨k, -, hfreeable, -⟩
        exact hgo (hfreeable 0 (Nat.zero_le k))

/-- Freeing a chain whose entries are in the FAT leaves everything else alone. -/
theorem freeChain_frame (hg : g.Valid) (kmalloc : Nat → Option (Nat → UInt8)) {start : Nat}
    (h : FreesInFat g d g.totalClusters start) :
    ∃ d', (∀ fuel, (freeChain start).run g kmalloc (clean d) fuel = .ret ((), clean d')) ∧
      (∀ lba, g.rootDirSector ≤ lba → d' lba = d lba) ∧
      ∀ a < 256 * g.sectorsPerFat,
        fat g d' a = if Freed g d g.totalClusters start a then 0 else fat g d a := by
  by_cases hskip : start < 2 ∨ start ≥ 0xFFF8
  · refine ⟨d, fun fuel => ?_, fun _ _ => rfl, fun a _ => (if_neg ?_).symm⟩
    · rw [Fs.run, freeChain]
      simp only [Fs.bind_apply, Fs.geometry_apply, Exec.ret_bind, if_pos hskip]
      rfl
    · rintro ⟨k, -, hfreeable, -⟩
      have hstart : Freeable start := hfreeable 0 (Nat.zero_le k)
      unfold Freeable at hstart
      omega
  · obtain ⟨d', hrun, hframe⟩ := freeFrom_frame hg kmalloc h
    refine ⟨d', fun fuel => ?_, hframe⟩
    rw [← hrun fuel, Fs.run, freeChain]
    simp only [Fs.bind_apply, Fs.geometry_apply, Exec.ret_bind, if_neg hskip]
    rfl

/-- The disk with the tombstone of an entry. -/
def tombstoned (d : Disk) (found : Found) : Disk :=
  d.set found.sector (setByte (d found.sector) (32 * found.idx) 0xE5)

theorem Geometry.Valid.rootDirSector_pos (hg : g.Valid) : 0 < g.rootDirSector := by
  have hfat := hg.clusters_le_fat
  have hroot := g.rootDirSector_eq
  have hmul : 1 * g.sectorsPerFat ≤ g.fatCount * g.sectorsPerFat :=
    Nat.mul_le_mul_right _ hg.fatCount_pos
  omega

/-- The tombstone of an entry leaves the records of long names alone. -/
theorem FoundIn.keeps_lfn (hg : g.Valid) {found : Found} (h : FoundIn g d₁ D found)
    (hframe : ∀ lba, g.rootDirSector ≤ lba → d' lba = d₁ lba) {lba slot : Nat}
    (hlba : g.rootDirSector ≤ lba) (hlfn : (recordAt (d₁ lba) slot).attributes = attrLfn) :
    recordAt (tombstoned d' found lba) slot = recordAt (d₁ lba) slot := by
  unfold tombstoned
  by_cases hsector : lba = found.sector
  · cases h with
    | flag =>
        -- the flag is found in no sector, and the tombstone goes to the boot sector
        have hzero : lba = 0 := hsector
        have hpos := hg.rootDirSector_pos
        omega
    | @entry sector idx hslot hnot =>
        obtain rfl : lba = sector := hsector
        have hother : slot ≠ idx := by
          rintro rfl
          exact hnot hlfn
        have hset : setByte (d' lba) (32 * idx + 0) 0xE5 = _ := setByte_eq_setRecord 0xE5 (by omega)
        rw [Nat.add_zero] at hset
        show recordAt (d'.set lba (setByte (d' lba) (32 * idx) 0xE5) lba) slot = _
        rw [Disk.set_self, hset, recordAt_setRecord_of_ne hother, hframe lba hlba]
  · rw [Disk.set_of_ne hsector, hframe lba hlba]

/-- The chain of the entry that a path leads to has its FAT entries in the FAT, so that its
removal writes no other sectors with them. -/
def RemovesInFat (g : Geometry) (d : Disk) (path : List UInt8) : Prop :=
  ∀ D name found, LeadsTo g d path D name → Looks g d D name (some found) →
    FreesInFat g d g.totalClusters found.entry.startingCluster

/-- A call that returns has been refused its path, or has looked its last component up. -/
theorem yields_onEntry {β : Type} {refuse : Int → β} {site : Site}
    {f : Nat → Name → Option Found → Fs β} (hf : ∀ D name r, (f D name r).Regular) {p : β × Io}
    (h : Yields ((onEntry path refuse site f).run g kmalloc (clean d)) p) :
    (∃ res, Yields ((resolvePath path).run g kmalloc (clean d)) (.error res, clean d) ∧
      p = (refuse res, clean d)) ∨
    ∃ D name found, (∀ D' name', LeadsTo g d path D' name' ↔ D' = D ∧ name' = name) ∧
      Looks g d D name found ∧ Yields ((f D name found).run g kmalloc (clean d)) p := by
  obtain ⟨⟨r, io⟩, hr, hp⟩ := (yields_bind (regular_resolvePath path) (regular_afterPath hf)).1 h
  obtain ⟨hio, hlead⟩ := yields_resolvePath hr
  obtain rfl : io = clean d := hio
  cases r with
  | error res =>
      obtain ⟨_, hp⟩ := hp
      exact Or.inl ⟨res, hr, (Exec.ret.inj hp).symm⟩
  | ok q =>
      obtain ⟨⟨found, io⟩, hfound, hp⟩ :=
        (yields_bind (regular_findInDir _ _ _) (hf q.1 q.2)).1 hp
      obtain ⟨hlooks, hio⟩ := (yields_findInDir site).1 hfound
      obtain rfl : io = clean d := hio
      refine Or.inr ⟨q.1, q.2, found, fun D' name' => (hlead D' name').trans ?_, hlooks, hp⟩
      rw [Except.ok.injEq, Prod.ext_iff, eq_comm (a := q.1), eq_comm (a := q.2)]

/-- A call that succeeds has resolved its path and looked its last component up. -/
theorem Succeeds.onEntry {site : Site} {f : Nat → Name → Option Found → Fs Int}
    (hf : ∀ D name r, (f D name r).Regular)
    (h : Succeeds (onEntry path id site f) g kmalloc d d') :
    ∃ D name found, (∀ D' name', LeadsTo g d path D' name' ↔ D' = D ∧ name' = name) ∧
      Looks g d D name found ∧ Succeeds (f D name found) g kmalloc d d' := by
  rcases yields_onEntry hf h with ⟨res, ⟨n, hr⟩, hp⟩ | hrest
  · have hneg := resolveFrom_error ((resolvePath_eq path ▸ hr :))
    obtain rfl : eok = res := (Prod.mk.inj hp).1
    exact absurd hneg (by decide)
  · exact hrest

/-- Whatever a call frees and marks, the records of long names stay as they are. -/
def KeepsLfn (g : Geometry) (d d' : Disk) : Prop :=
  ∀ lba slot, g.rootDirSector ≤ lba → (recordAt (d lba) slot).attributes = attrLfn →
    recordAt (d' lba) slot = recordAt (d lba) slot

/-- `fat16_delete_file` keeps the records of long names. -/
theorem deleteFile_keeps_lfn (hg : g.Valid) (hfat : RemovesInFat g d path)
    (h : Succeeds (deleteFile path) g kmalloc d d') : KeepsLfn g d d' := by
  rw [deleteFile_eq] at h
  obtain ⟨D, name, found, hleads, hlooks, n, hrun⟩ :=
    h.onEntry fun _ _ r => (total_deleteFound r).regular
  have hlead : LeadsTo g d path D name := (hleads D name).2 ⟨rfl, rfl⟩
  cases found with
  | none =>
      obtain ⟨hcode, -⟩ := Prod.mk.inj (Exec.ret.inj hrun)
      exact absurd hcode (by decide)
  | some found =>
      by_cases hdir : found.entry.isDirectory = true
      · rw [Fs.run, deleteFound, if_pos hdir] at hrun
        obtain ⟨hcode, -⟩ := Prod.mk.inj (Exec.ret.inj hrun)
        exact absurd hcode (by decide)
      · rw [Fs.run, deleteFound, if_neg hdir] at hrun
        obtain ⟨⟨_, io⟩, hfree, hmark⟩ := Exec.bind_eq_ret.1 hrun
        obtain ⟨d₁, hchain, hframe, -⟩ := freeChain_frame hg kmalloc
          (hfat D name found hlead hlooks)
        have hdisk : ∃ d₂, io = clean d₂ ∧ ∀ lba, g.rootDirSector ≤ lba → d₂ lba = d lba := by
          by_cases hstart : 2 ≤ found.entry.startingCluster
          · rw [Fs.when, if_pos hstart] at hfree
            exact ⟨d₁, (Prod.mk.inj (Exec.ret.inj (hfree.symm.trans (hchain n)))).2, hframe⟩
          · rw [Fs.when, if_neg hstart] at hfree
            exact ⟨d, (Prod.mk.inj (Exec.ret.inj hfree)).2.symm, fun _ _ => rfl⟩
        obtain ⟨d₂, rfl, hframe⟩ := hdisk
        obtain rfl : tombstoned d₂ found = d' :=
          congrArg Io.disk (Prod.mk.inj (Exec.ret.inj hmark)).2
        exact fun lba slot hlba hlfn => hlooks.foundIn.keeps_lfn hg hframe hlba hlfn

/-- `fat16_remove_directory` keeps the records of long names. -/
theorem removeDirectory_keeps_lfn (hg : g.Valid) (hfat : RemovesInFat g d path)
    (h : Succeeds (removeDirectory path) g kmalloc d d') : KeepsLfn g d d' := by
  rw [removeDirectory_eq] at h
  obtain ⟨D, name, found, hleads, hlooks, hrun⟩ := h.onEntry fun _ _ => regular_removeFound
  have hlead : LeadsTo g d path D name := (hleads D name).2 ⟨rfl, rfl⟩
  cases found with
  | none =>
      obtain ⟨n, hrun⟩ := hrun
      obtain ⟨hcode, -⟩ := Prod.mk.inj (Exec.ret.inj hrun)
      exact absurd hcode (by decide)
  | some found =>
      by_cases hdir : found.entry.isDirectory = true
      · rw [Succeeds, removeFound, if_pos hdir, yields_bind (regular_iterateDirectory _ _ _ _)
          fun r => (total_removeTail found r).regular] at hrun
        obtain ⟨⟨r, io⟩, hiter, n, hrun⟩ := hrun
        obtain ⟨-, hio⟩ := (yields_iterateDirectory _).1 hiter
        obtain rfl : io = clean d := hio
        by_cases hfull : 0 < r.2
        · rw [Fs.run, if_pos hfull] at hrun
          obtain ⟨hcode, -⟩ := Prod.mk.inj (Exec.ret.inj hrun)
          exact absurd hcode (by decide)
        · rw [Fs.run, if_neg hfull] at hrun
          obtain ⟨⟨_, io⟩, hfree, hmark⟩ := Exec.bind_eq_ret.1 hrun
          obtain ⟨d₁, hchain, hframe, -⟩ := freeChain_frame hg kmalloc
            (hfat D name found hlead hlooks)
          obtain rfl : io = clean d₁ := (Prod.mk.inj (Exec.ret.inj (hfree.symm.trans (hchain n)))).2
          obtain rfl : tombstoned d₁ found = d' :=
            congrArg Io.disk (Prod.mk.inj (Exec.ret.inj hmark)).2
          exact fun lba slot hlba hlfn => hlooks.foundIn.keeps_lfn hg hframe hlba hlfn
      · obtain ⟨n, hrun⟩ := hrun
        rw [Fs.run, removeFound, if_neg hdir] at hrun
        obtain ⟨hcode, -⟩ := Prod.mk.inj (Exec.ret.inj hrun)
        exact absurd hcode (by decide)

/-! ## What a creation takes -/

theorem createFile_takes (hlead : LeadsTo g d path D name)
    (h : Succeeds (createFile path) g kmalloc d d') :
    ∃ sector slot, FreeSlot g d D sector slot ∧ (recordAt (d' sector) slot).IsLfn := by
  rw [createFile_eq] at h
  obtain ⟨D', name', found, hleads, -, hrun⟩ := h.onEntry regular_createFound
  obtain ⟨rfl, rfl⟩ := (hleads D name).1 hlead
  cases found with
  | none => exact insertEntry_takes (hlead.name.2 rfl) hlead.name.1 hrun
  | some found =>
      obtain ⟨n, hrun⟩ := hrun
      obtain ⟨hcode, -⟩ := Prod.mk.inj (Exec.ret.inj hrun)
      exact absurd hcode (by decide)

/-- `fat16_make_directory` behind the lookup. -/
def makeFound (D : Nat) (name : Name) : Option Found → Fs Int
  | some _ => pure (-eexist)
  | none => do
      let g ← Fs.geometry
      let newDirCluster ← allocCluster
      if newDirCluster = 0 then pure (-enospc)
      else do
        if ← flushDirectory g.sectorsPerCluster (g.clusterLba newDirCluster)
            (newDirSector newDirCluster D) then
          insertEntry D name attrDirectory newDirCluster 0
        else pure (-eio)

theorem makeDirectory_eq (path : List UInt8) :
    makeDirectory path = onEntry path id .existing makeFound := rfl

theorem total_flushDirectory (n lba : Nat) (dirBuf : Sector) :
    (flushDirectory n lba dirBuf).Total := by
  induction n generalizing lba dirBuf with
  | zero => exact total_pure _
  | succ n ih => exact (total_write _ _ _).bind fun _ => total_ite (ih _ _) (total_pure _)

theorem regular_makeFound (D : Nat) (name : Name) (found : Option Found) :
    (makeFound D name found).Regular := by
  cases found with
  | some found => exact (total_pure _).regular
  | none =>
      refine total_geometry.regular.bind fun g => total_allocCluster.regular.bind fun c => ?_
      refine regular_ite (total_pure _).regular ?_
      exact (total_flushDirectory _ _ _).regular.bind fun _ =>
        regular_ite (regular_insertEntry _ _ _ _ _) (total_pure _).regular

/-- The clusters of a directory are data clusters, and marked as taken. -/
def Taken (g : Geometry) (d : Disk) (D : Nat) : Prop :=
  ∀ c, DirCluster g d D c → g.IsCluster c ∧ fat g d c ≠ 0

/-- The cluster that has been prepared for a new directory is none of its parent's. -/
theorem FreeSlot.of_prepared (hg : g.Valid) (hD : Taken g d D) {c P sector slot : Nat}
    (hc : LeastFree g d c) (h : FreeSlot g (prepared g d c P) D sector slot) :
    FreeSlot g d D sector slot := by
  have hother : ∀ a, DirCluster g d D a → a ≠ c := by
    rintro a ha rfl
    exact (hD a ha).2 hc.free
  have hcluster : ∀ a, DirCluster g (prepared g d c P) D a → DirCluster g d D a := by
    intro a ha
    induction ha with
    | head hlive => exact .head hlive
    | @next b _ hlive ih =>
        have hfat : fat g (prepared g d c P) b = fat g d b := by
          rw [fat_prepared hg hc.isCluster (hD b ih).1, if_neg (hother b ih)]
        rw [hfat] at hlive ⊢
        exact .next ih hlive
  have hmem : DirSlot g d D sector slot := by
    refine ⟨h.mem.slot_lt, h.mem.mem.imp_right ?_⟩
    rintro ⟨a, ha, hsector⟩
    exact ⟨a, hcluster a ha, hsector⟩
  have hsector : ¬ DirSector g c sector := by
    intro hin
    have h2 := hc.isCluster.1
    rcases hmem.mem with ⟨rfl, hlow, hhigh⟩ | ⟨a, ha, hlow, hhigh⟩
    · have hroot : DirSector g 0 sector := ⟨hlow, hhigh⟩
      have := hroot.eq (Or.inl rfl) (Or.inr h2) hin
      omega
    · have ha2 := (hD a ha).1.1
      have hsame : DirSector g a sector := by
        unfold DirSector dirBase dirSectors
        rw [if_neg (by omega), if_neg (by omega)]
        exact ⟨hlow, hhigh⟩
      exact hother a ha (hsame.eq (Or.inr ha2) (Or.inr h2) hin)
  have hfree := h.free
  rw [prepared_of_ne hc.isCluster.1 hsector,
    setFat_of_le (IsCluster.lt_fat hg hc.isCluster) hmem.rootDirSector_le] at hfree
  exact ⟨hmem, hfree⟩

theorem makeDirectory_takes (hg : g.Valid) (hlead : LeadsTo g d path D name) (hD : Taken g d D)
    (h : Succeeds (makeDirectory path) g kmalloc d d') :
    ∃ sector slot, FreeSlot g d D sector slot ∧ (recordAt (d' sector) slot).IsLfn := by
  rw [makeDirectory_eq] at h
  obtain ⟨D', name', found, hleads, -, n, hrun⟩ := h.onEntry regular_makeFound
  obtain ⟨rfl, rfl⟩ := (hleads D name).1 hlead
  cases found with
  | some found =>
      obtain ⟨hcode, -⟩ := Prod.mk.inj (Exec.ret.inj hrun)
      exact absurd hcode (by decide)
  | none =>
      simp only [Fs.run, makeFound, Fs.bind_apply, Fs.geometry_apply, Exec.ret_bind] at hrun
      have hg' : (⟨g, n, kmalloc⟩ : Env).geom.Valid := hg
      rcases allocCluster_clean hg' d with ⟨c, hc, halloc⟩ | ⟨-, halloc⟩
      · have hc₀ : c ≠ 0 := by
          have := hc.isCluster.1
          omega
        simp only [halloc, Exec.ret_bind, if_neg hc₀, Fs.bind_apply, flushDirectory_clean,
          if_true] at hrun
        have hinsert : Yields ((insertEntry D name attrDirectory c 0).run g kmalloc
            (clean (prepared g d c D))) (eok, clean d') := ⟨n, hrun⟩
        obtain ⟨sector, slot, hfree, hlfn⟩ :=
          insertEntry_takes (hlead.name.2 rfl) hlead.name.1 hinsert
        exact ⟨sector, slot, hfree.of_prepared hg hD hc, hlfn⟩
      · simp only [halloc, Exec.ret_bind, if_true] at hrun
        obtain ⟨hcode, -⟩ := Prod.mk.inj (Exec.ret.inj hrun)
        exact absurd hcode (by decide)

/-! ## Cycles -/

/-- A name is created and removed again, as a file or as a directory. -/
inductive Cycle (g : Geometry) (kmalloc : Nat → Option (Nat → UInt8)) (path : List UInt8) :
    Disk → Disk → Disk → Prop
  | file {d d₁ d₂ : Disk} (hcreate : Succeeds (createFile path) g kmalloc d d₁)
      (hdelete : Succeeds (deleteFile path) g kmalloc d₁ d₂) : Cycle g kmalloc path d d₁ d₂
  | directory {d d₁ d₂ : Disk} (hmake : Succeeds (makeDirectory path) g kmalloc d d₁)
      (hremove : Succeeds (removeDirectory path) g kmalloc d₁ d₂) : Cycle g kmalloc path d d₁ d₂

/-- Every slot of directory `D` that is free in `d` is free in `d'`. -/
def GivesSlotsBack (g : Geometry) (d d' : Disk) (D : Nat) : Prop :=
  ∀ sector slot, FreeSlot g d D sector slot → (recordAt (d' sector) slot).IsFree

/-- **No cycle gives its slots back.**  Whatever the volume holds: when a name has been created
in a directory and removed again, a slot that was free before is taken by a record of the long
name. -/
theorem cycle_loses_slot (hg : g.Valid) (hlead : LeadsTo g d path D name) (hD : Taken g d D)
    (h : Cycle g kmalloc path d d₁ d₂) (hfat : RemovesInFat g d₁ path) :
    ¬ GivesSlotsBack g d d₂ D := by
  have hlost : (∃ sector slot, FreeSlot g d D sector slot ∧ (recordAt (d₁ sector) slot).IsLfn) ∧
      KeepsLfn g d₁ d₂ := by
    cases h with
    | file hcreate hdelete =>
        exact ⟨createFile_takes hlead hcreate, deleteFile_keeps_lfn hg hfat hdelete⟩
    | directory hmake hremove =>
        exact ⟨makeDirectory_takes hg hlead hD hmake, removeDirectory_keeps_lfn hg hfat hremove⟩
  obtain ⟨⟨sector, slot, hfree, hlfn⟩, hkeep⟩ := hlost
  intro hback
  have hagain := hback sector slot hfree
  rw [hkeep sector slot hfree.mem.rootDirSector_le hlfn.2] at hagain
  exact hlfn.1 hagain

/-! ## A new volume -/

/-- A volume of two clusters whose FAT has an entry for every 16-bit number. -/
def wideGeometry : Geometry := .small 1 256 1 2 (by decide)

/-- The disk after a call on it. -/
def after (x : Fs Int) (d : Disk) : Disk :=
  left (x.run wideGeometry (fun _ => none) (clean d) 3)

theorem succeeds_after {x : Fs Int} (hx : x.Regular)
    (h : returned (x.run wideGeometry (fun _ => none) (clean d) 3) = some eok) :
    Succeeds x wideGeometry (fun _ => none) d (after x d) := yields_of_returned hx h

/-- The root directory of a new volume with the entry `a`, whose short name is `A~1`. -/
def oneEntry : Disk := after (insertEntry 0 [0x61] attrArchive 0 0) blankDisk

/-- The root directory has no clusters. -/
theorem taken_root : Taken g d 0 := by
  intro c hc
  exfalso
  induction hc with
  | head hlive => exact absurd hlive.1 (by decide)
  | next _ _ ih => exact ih

/-- The names of one component lead to the root directory. -/
theorem leadsTo_a (g : Geometry) (d : Disk) : LeadsTo g d [0x2F, 0x61] 0 [0x61] :=
  .last (by decide) (by decide) (by decide) (by decide)

/-- The directory `/a` is made and removed. -/
theorem cycle_loses_slot_directory :
    ¬ GivesSlotsBack wideGeometry blankDisk
      (after (removeDirectory [0x2F, 0x61]) (after (makeDirectory [0x2F, 0x61]) blankDisk)) 0 := by
  have hmake : Succeeds (makeDirectory [0x2F, 0x61]) wideGeometry (fun _ => none) blankDisk _ :=
    succeeds_after (regular_onEntry regular_makeFound) (by decide +kernel)
  have hremove : Succeeds (removeDirectory [0x2F, 0x61]) wideGeometry (fun _ => none)
      (after (makeDirectory [0x2F, 0x61]) blankDisk) _ :=
    succeeds_after (regular_onEntry fun _ _ => regular_removeFound) (by decide +kernel)
  refine cycle_loses_slot ⟨by decide, by decide, by decide⟩ (leadsTo_a _ _) taken_root
    (.directory hmake hremove) ?_
  -- every number that is freed has its entry in this FAT
  intro _ _ found _ _ k _ hfreeable
  exact (hfreeable k (Nat.le_refl k)).2.trans (by decide)

/-- The file `/a` is created and deleted. -/
def cycled (d : Disk) : Disk :=
  after (deleteFile [0x2F, 0x61]) (after (createFile [0x2F, 0x61]) d)

/-- **A lost slot.**  The file `/a` is created on a new volume and deleted: the first slot of
the root directory was free and is not free any more.  After fifteen such cycles there is no
room left for it. -/
theorem deleted_file_loses_slot :
    Succeeds (createFile [0x2F, 0x61]) wideGeometry (fun _ => none) blankDisk
        (after (createFile [0x2F, 0x61]) blankDisk) ∧
      Succeeds (deleteFile [0x2F, 0x61]) wideGeometry (fun _ => none)
        (after (createFile [0x2F, 0x61]) blankDisk) (cycled blankDisk) ∧
      ¬ GivesSlotsBack wideGeometry blankDisk (cycled blankDisk) 0 ∧
      returned ((createFile [0x2F, 0x61]).run wideGeometry (fun _ => none)
        (clean (cycled^[15] blankDisk)) 3) = some (-enospc) := by
  refine ⟨succeeds_after (regular_onEntry regular_createFound) (by decide +kernel),
    succeeds_after (regular_onEntry fun _ _ r => (total_deleteFound r).regular)
      (by decide +kernel), fun hback => ?_, by decide +kernel⟩
  have hfree : FreeSlot wideGeometry blankDisk 0 257 0 :=
    ⟨⟨by decide, Or.inl ⟨rfl, by decide, by decide⟩⟩, Or.inl rfl⟩
  have htaken : recordAt (cycled blankDisk 257) 0 0 = 0x41 := by decide +kernel
  rcases hback 257 0 hfree with hzero | htomb
  · exact absurd (htaken.symm.trans hzero) (by decide)
  · exact absurd (htaken.symm.trans htomb) (by decide)

end Fat16

end BenmoshOS
