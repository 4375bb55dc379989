import BenmoshOS.Fat16.Termination

/-!
# FAT16: which sectors the functions of the driver write

For each function of the driver, on every disk and while no access fails: the exact condition
under which all sectors it writes are inside a given fence.

* The walks and lookups write nothing (`quiet_iterateDirectory`, `quiet_resolvePath`).
* `within_writeFatEntry` — the copies of a FAT entry are written inside the FAT exactly when
  the cluster has an entry there.
* `within_freeFrom` — `fat16_free_chain` follows links that a sound volume does not have.
* `within_writeRecords` — the records of a new entry and the sector behind them.
* `within_rounds` — the clusters `fat16_write_file` allocates are always inside.
-/

namespace BenmoshOS

namespace Fat16

open Exec (Yields Halts)
open Fs

variable {g : Geometry} {d : Disk} {kmalloc : Nat → Option (Nat → UInt8)}
  {P : Site → Nat → Prop}

/-! ## Functions that only read -/

theorem quiet_readFatEntry (site : Site) (cluster : Nat) : (readFatEntry site cluster).Quiet := by
  refine quiet_geometry.bind fun g => (quiet_read _ _).bind fun buffer => ?_
  cases buffer with
  | none => exact quiet_pure _
  | some buffer => exact quiet_pure _

section Visits

variable {κ : Type}

theorem quiet_visitSectors (site : Site) (callback : Visitor κ) (n sec : Nat) (context : κ) :
    (visitSectors site callback n sec context).Quiet := by
  induction n generalizing sec context with
  | zero => exact quiet_pure _
  | succ n ih =>
      refine (quiet_read _ _).bind fun buffer => ?_
      cases buffer with
      | none => exact quiet_pure _
      | some buffer =>
          simp only
          match visitRecords callback sec buffer 16 0 context with
          | (some status, context) => exact quiet_pure _
          | (none, context) => exact ih _ _

theorem quiet_visitCluster (site : Site) (callback : Visitor κ) (p : Nat × κ) :
    (visitCluster site callback p).Quiet := by
  refine quiet_geometry.bind fun g => quiet_ite ?_ (quiet_pure _)
  refine (quiet_visitSectors _ _ _ _ _).bind fun r => ?_
  match r with
  | (some status, context) => exact quiet_pure _
  | (none, context) => exact (quiet_readFatEntry _ _).bind fun _ => quiet_pure _

theorem quiet_iterateDirectory (site : Site) (D : Nat) (callback : Visitor κ) (context : κ) :
    (iterateDirectory site D callback context).Quiet := by
  refine quiet_geometry.bind fun g => quiet_ite ?_ ?_
  · exact (quiet_visitSectors _ _ _ _ _).bind fun _ => quiet_pure _
  · exact quiet_loop (quiet_visitCluster site callback) _

end Visits

theorem quiet_findInDir (site : Site) (D : Nat) (name : Name) : (findInDir site D name).Quiet :=
  (quiet_iterateDirectory _ _ _ _).bind fun _ => quiet_pure _

theorem quiet_resolveFrom (n D : Nat) (path : List UInt8) : (resolveFrom n D path).Quiet := by
  induction n generalizing D path with
  | zero => exact quiet_pure _
  | succ n ih =>
      refine quiet_ite (quiet_pure _) ?_
      refine quiet_ite (ih _ _) (quiet_ite ?_ (quiet_ite (quiet_pure _) ?_))
      · refine (quiet_findInDir _ _ _).bind fun found => ?_
        cases found with
        | none => exact quiet_pure _
        | some found => exact quiet_ite (ih _ _) (quiet_pure _)
      · exact (quiet_findInDir _ _ _).bind fun _ => quiet_pure _

theorem quiet_resolvePath (path : List UInt8) : (resolvePath path).Quiet := by
  rw [resolvePath_eq]
  exact quiet_resolveFrom _ _ _

theorem quiet_shortNameLoop (D : Nat) (name : Name) (a : Nat) :
    (Fs.loop (tryShortName D name) a).Quiet := by
  refine quiet_loop (fun a => (quiet_findInDir _ _ _).bind fun found => ?_) a
  cases found with
  | none => exact quiet_pure _
  | some found => exact quiet_pure _

theorem quiet_appendWalk (p : Nat × Nat) : (Fs.loop walkRound p).Quiet := by
  refine quiet_loop (fun p => quiet_ite ?_ (quiet_pure _)) p
  exact (quiet_readFatEntry _ _).bind fun _ => quiet_ite (quiet_pure _) (quiet_pure _)

/-- Sector `lba` is one of cluster `c`. -/
def Geometry.InCluster (g : Geometry) (c lba : Nat) : Prop :=
  g.clusterLba c ≤ lba ∧ lba < g.clusterLba c + g.sectorsPerCluster

/-! ## FAT entries -/

/-- Sector `lba` is in one of the FAT copies. -/
def Geometry.InFat (g : Geometry) (lba : Nat) : Prop :=
  g.fatStartSector ≤ lba ∧ lba < g.fatStartSector + g.fatCount * g.sectorsPerFat

theorem within_mirrorFat (sectorOffset : Nat) (buffer : Sector) (n i : Nat) (d : Disk) :
    (mirrorFat sectorOffset buffer n i).Within P g kmalloc d ↔
      ∀ k < n, P .fatUpdate (g.fatStartSector + (i + k) * g.sectorsPerFat + sectorOffset) := by
  induction n generalizing i d with
  | zero => exact iff_of_true ((quiet_pure _).within P g kmalloc d) (by simp)
  | succ n ih =>
      rw [mirrorFat, within_geometry_bind, within_write_bind, if_pos rfl, ih]
      constructor
      · rintro ⟨hfirst, hrest⟩ k hk
        cases k with
        | zero => exact hfirst
        | succ k =>
            rw [← Nat.add_assoc, Nat.add_right_comm i k 1]
            exact hrest k (by omega)
      · intro h
        refine ⟨h 0 (by omega), fun k hk => ?_⟩
        rw [Nat.add_assoc i 1 k, Nat.add_comm 1 k]
        exact h (k + 1) (by omega)

/-- The copies of a FAT sector are all in the FAT when each of them is in its own copy. -/
theorem copies_inFat_iff (hg : g.Valid) (sectorOffset : Nat) :
    (∀ k < g.fatCount, g.InFat (g.fatStartSector + k * g.sectorsPerFat + sectorOffset)) ↔
      sectorOffset < g.sectorsPerFat := by
  constructor
  · intro h
    obtain ⟨n, hn⟩ : ∃ n, g.fatCount = n + 1 := ⟨g.fatCount - 1, by have := hg.fatCount_pos; omega⟩
    have hlast := (h n (by omega)).2
    rw [hn, Nat.succ_mul] at hlast
    omega
  · intro h k hk
    have hcopy : (k + 1) * g.sectorsPerFat ≤ g.fatCount * g.sectorsPerFat :=
      Nat.mul_le_mul_right _ hk
    rw [Nat.succ_mul] at hcopy
    exact ⟨by omega, by omega⟩

/-- **FAT writes.**  They stay in the FAT exactly when the cluster has an entry there. -/
theorem within_writeFatEntry (hg : g.Valid) (hP : ∀ lba, P .fatUpdate lba ↔ g.InFat lba)
    (c v : Nat) (d : Disk) :
    (writeFatEntry c v).Within P g kmalloc d ↔ c < 256 * g.sectorsPerFat := by
  rw [writeFatEntry, within_geometry_bind, within_read_bind, within_mirrorFat]
  simp only [Nat.zero_add, hP]
  rw [copies_inFat_iff hg]
  omega

theorem within_readFatEntry_bind {β : Type} {site : Site} {c : Nat} {f : Nat → Fs β} :
    (readFatEntry site c >>= f).Within P g kmalloc d ↔
      (f (fat g d c)).Within P g kmalloc d := Iff.rfl

theorem within_writeFatEntry_bind {β : Type} (hg : g.Valid)
    (hP : ∀ lba, P .fatUpdate lba ↔ g.InFat lba) {c v : Nat} {f : Int → Fs β} :
    (writeFatEntry c v >>= f).Within P g kmalloc d ↔
      c < 256 * g.sectorsPerFat ∧ (f eok).Within P g kmalloc (setFat g d c v) :=
  ((total_writeFatEntry c v).within_bind (n := 0) (writeFatEntry_clean c v)).trans
    (and_congr_left' (within_writeFatEntry hg hP c v d))

/-- What the scan finds is a data cluster. -/
theorem scanTable_isCluster {buffer : Sector} {s : Nat} : ∀ {n i c : Nat},
    scanTable g.totalClusters buffer s n i = some (c + 1) → g.IsCluster (c + 1) := by
  intro n
  induction n with
  | zero => exact fun h => absurd h (by simp [scanTable])
  | succ n ih =>
      intro i c h
      rw [scanTable] at h
      by_cases hlow : (s * 256 + i) % 65536 < 2
      · rw [if_pos hlow] at h
        exact ih h
      · rw [if_neg hlow] at h
        by_cases hend : (s * 256 + i) % 65536 ≥ g.totalClusters + 2
        · rw [if_pos hend] at h
          exact absurd h (by simp)
        · rw [if_neg hend] at h
          by_cases hfree : u16 buffer (2 * i) = 0
          · rw [if_pos hfree] at h
            rw [← Option.some.inj h]
            exact ⟨by omega, by omega⟩
          · rw [if_neg hfree] at h
            exact ih h

theorem within_allocFrom (hg : g.Valid) (hP : ∀ lba, P .fatUpdate lba ↔ g.InFat lba)
    (n s : Nat) (d : Disk) : (allocFrom n s).Within P g kmalloc d := by
  induction n generalizing s with
  | zero => exact (quiet_pure _).within P g kmalloc d
  | succ n ih =>
      rw [allocFrom, within_geometry_bind, within_read_bind]
      simp only
      cases hscan : scanTable g.totalClusters (d (g.fatStartSector + s)) s 256 0 with
      | none => exact ih (s + 1)
      | some c =>
          cases c with
          | zero => exact (quiet_pure _).within P g kmalloc d
          | succ c =>
              refine (within_writeFatEntry_bind hg hP).2 ⟨?_, (quiet_pure _).within P g kmalloc _⟩
              exact IsCluster.lt_fat hg (scanTable_isCluster hscan)

/-- Allocation stays in the FAT. -/
theorem within_allocCluster (hg : g.Valid) (hP : ∀ lba, P .fatUpdate lba ↔ g.InFat lba)
    (d : Disk) : allocCluster.Within P g kmalloc d := by
  rw [allocCluster, within_geometry_bind]
  exact within_allocFrom hg hP _ _ d

/-! ## Chains that are freed -/

/-- A cluster number with which `fat16_free_chain` goes on. -/
def Freeable (c : Nat) : Prop := 2 ≤ c ∧ c < 0xFFF0

instance (c : Nat) : Decidable (Freeable c) := inferInstanceAs (Decidable (_ ∧ _))

/-- The first `n` clusters that are freed from `start` on have their entries in the FAT. -/
def FreesInFat (g : Geometry) (d : Disk) (n start : Nat) : Prop :=
  ∀ k < n, (∀ j ≤ k, Freeable ((fat g d)^[j] start)) →
    (fat g d)^[k] start < 256 * g.sectorsPerFat

theorem FreesInFat.of_not_freeable {n start : Nat} (h : ¬ Freeable start) :
    FreesInFat g d n start :=
  fun _ _ hfreeable => absurd (hfreeable 0 (Nat.zero_le _)) h

section Freed

variable {c : Nat}

/-- Behind a cluster that has been freed the walk meets the same clusters as before, up to the
first one that is not freed any more. -/
theorem iterate_setFat_zero (hg : g.Valid) (hc : c < 256 * g.sectorsPerFat) {start k : Nat}
    (hfat : ∀ i < k, (fat g d)^[i] start < 256 * g.sectorsPerFat)
    (hother : ∀ i < k, (fat g d)^[i] start ≠ c) :
    (fat g (setFat g d c 0))^[k] start = (fat g d)^[k] start := by
  induction k with
  | zero => rfl
  | succ k ih =>
      have hk := ih (fun i hi => hfat i (by omega)) fun i hi => hother i (by omega)
      rw [Function.iterate_succ_apply', Function.iterate_succ_apply', hk,
        fat_setFat hg hc (hfat k (by omega)) (by omega), if_neg (hother k (by omega))]

theorem FreesInFat.of_freed (hg : g.Valid) (hc : c < 256 * g.sectorsPerFat) {n : Nat}
    (h : FreesInFat g (setFat g d c 0) n (fat g d c)) : FreesInFat g d (n + 1) c := by
  intro k
  induction k using Nat.strong_induction_on with
  | _ k ih =>
      intro hk hfreeable
      cases k with
      | zero => exact hc
      | succ k =>
          have hbefore : ∀ i ≤ k, (fat g d)^[i] c < 256 * g.sectorsPerFat := fun i hi =>
            ih i (by omega) (by omega) fun j hj => hfreeable j (by omega)
          by_cases hback : ∃ j, 1 ≤ j ∧ j ≤ k ∧ (fat g d)^[j] c = c
          · -- the chain has come back to `c` and goes round once more
            obtain ⟨j, hpos, hj, hcycle⟩ := hback
            have hround : (fat g d)^[k + 1] c = (fat g d)^[k + 1 - j] c := by
              conv_lhs => rw [show k + 1 = (k + 1 - j) + j by omega, Function.iterate_add_apply,
                hcycle]
            rw [hround]
            exact hbefore _ (by omega)
          · have hother : ∀ i < k, (fat g d)^[i] (fat g d c) ≠ c := fun i hi heq =>
              hback ⟨i + 1, by omega, by omega, by rwa [Function.iterate_succ_apply]⟩
            have hsame : ∀ i ≤ k, (fat g (setFat g d c 0))^[i] (fat g d c) =
                (fat g d)^[i + 1] c := by
              intro i hi
              rw [Function.iterate_succ_apply]
              refine iterate_setFat_zero hg hc (fun j hj => ?_) fun j hj => hother j (by omega)
              rw [← Function.iterate_succ_apply]
              exact hbefore (j + 1) (by omega)
            rw [← hsame k (Nat.le_refl k)]
            refine h k (by omega) fun j hj => ?_
            rw [hsame j hj]
            exact hfreeable (j + 1) (by omega)

/-- While the walk goes on behind a cluster that has been freed, it has not come back to it. -/
theorem FreesInFat.iterate_eq (hg : g.Valid) (hfree : Freeable c) {n k : Nat}
    (h : FreesInFat g d (n + 1) c) (hk : k < n)
    (hfreeable : ∀ j ≤ k, Freeable ((fat g (setFat g d c 0))^[j] (fat g d c))) :
    ∀ i ≤ k, (fat g (setFat g d c 0))^[i] (fat g d c) = (fat g d)^[i + 1] c ∧
      (fat g d)^[i + 1] c < 256 * g.sectorsPerFat := by
  have hc : c < 256 * g.sectorsPerFat :=
    h 0 (by omega) fun j hj => by rwa [Nat.le_zero.1 hj]
  intro i
  induction i using Nat.strong_induction_on with
  | _ i ih =>
      intro hi
      have heq : (fat g (setFat g d c 0))^[i] (fat g d c) = (fat g d)^[i + 1] c := by
        cases i with
        | zero => rfl
        | succ i =>
            obtain ⟨hsame, hlt⟩ := ih i (by omega) (by omega)
            have hnext := hfreeable (i + 1) hi
            rw [Function.iterate_succ_apply', hsame, fat_setFat hg hc hlt (by omega)] at hnext ⊢
            -- the entry of `c` is zero now
            by_cases hback : (fat g d)^[i + 1] c = c
            · rw [if_pos hback] at hnext
              exact absurd hnext.1 (by omega)
            · rw [if_neg hback, ← Function.iterate_succ_apply' (fat g d)]
      refine ⟨heq, h (i + 1) (by omega) fun j hj => ?_⟩
      cases j with
      | zero => exact hfree
      | succ j =>
          by_cases hji : j = i
          · rw [hji, ← heq]
            exact hfreeable i hi
          · rw [← (ih j (by omega) (by omega)).1]
            exact hfreeable j (by omega)

theorem FreesInFat.freed (hg : g.Valid) (hfree : Freeable c) {n : Nat}
    (h : FreesInFat g d (n + 1) c) : FreesInFat g (setFat g d c 0) n (fat g d c) := by
  intro k hk hfreeable
  obtain ⟨heq, hlt⟩ := h.iterate_eq hg hfree hk hfreeable k (Nat.le_refl k)
  rwa [heq]

/-- `a` is one of the first `n` clusters that are freed from `start` on. -/
def Freed (g : Geometry) (d : Disk) (n start a : Nat) : Prop :=
  ∃ k < n, (∀ j ≤ k, Freeable ((fat g d)^[j] start)) ∧ (fat g d)^[k] start = a

instance (n start a : Nat) : Decidable (Freed g d n start a) :=
  inferInstanceAs (Decidable (∃ k < n, _ ∧ _))

/-- The first cluster is freed, and then those that the walk meets behind it. -/
theorem FreesInFat.freed_succ_iff (hg : g.Valid) (hfree : Freeable c) {n a : Nat}
    (h : FreesInFat g d (n + 1) c) :
    Freed g d (n + 1) c a ↔ a = c ∨ Freed g (setFat g d c 0) n (fat g d c) a := by
  constructor
  · rintro ⟨k, hk, hfreeable, heq⟩
    induction k using Nat.strong_induction_on with
    | _ k ih =>
        cases k with
        | zero => exact Or.inl heq.symm
        | succ k =>
            have hlt : ∀ i ≤ k, (fat g d)^[i] c < 256 * g.sectorsPerFat := fun i hi =>
              h i (by omega) fun j hj => hfreeable j (by omega)
            by_cases hback : ∃ j, 1 ≤ j ∧ j ≤ k ∧ (fat g d)^[j] c = c
            · -- the chain has come back to `c`, and has met `a` before
              obtain ⟨j, hpos, hj, hcycle⟩ := hback
              refine ih (k + 1 - j) (by omega) (by omega) (fun i hi => hfreeable i (by omega)) ?_
              rw [← heq]
              conv_rhs => rw [show k + 1 = (k + 1 - j) + j by omega, Function.iterate_add_apply,
                hcycle]
            · have hsame : ∀ i ≤ k, (fat g (setFat g d c 0))^[i] (fat g d c) =
                  (fat g d)^[i + 1] c := by
                intro i hi
                rw [Function.iterate_succ_apply]
                refine iterate_setFat_zero hg (hlt 0 (by omega)) (fun j hj => ?_) fun j hj hjc => ?_
                · rw [← Function.iterate_succ_apply]
                  exact hlt (j + 1) (by omega)
                · exact hback ⟨j + 1, by omega, by omega, by rwa [Function.iterate_succ_apply]⟩
              refine Or.inr ⟨k, by omega, fun j hj => ?_, (hsame k (Nat.le_refl k)).trans heq⟩
              rw [hsame j hj]
              exact hfreeable (j + 1) (by omega)
  · rintro (rfl | ⟨k, hk, hfreeable, heq⟩)
    · exact ⟨0, by omega, fun j hj => by rwa [Nat.le_zero.1 hj], rfl⟩
    · have hsame := h.iterate_eq hg hfree hk hfreeable
      refine ⟨k + 1, by omega, fun j hj => ?_, (hsame k (Nat.le_refl k)).1.symm.trans heq⟩
      cases j with
      | zero => exact hfree
      | succ j =>
          rw [← (hsame j (by omega)).1]
          exact hfreeable j (by omega)

end Freed

/-- **Freeing.**  The loop of `fat16_free_chain` stays in the FAT exactly when the clusters it
meets have their entries there. -/
theorem within_freeFrom (hg : g.Valid) (hP : ∀ lba, P .fatUpdate lba ↔ g.InFat lba)
    (n curr : Nat) (d : Disk) :
    (freeFrom n curr).Within P g kmalloc d ↔ FreesInFat g d n curr := by
  induction n generalizing curr d with
  | zero => exact iff_of_true ((quiet_pure _).within P g kmalloc d) fun k hk => absurd hk (by omega)
  | succ n ih =>
      by_cases hgo : Freeable curr
      · have hrun : freeFrom (n + 1) curr = readFatEntry .freeWalk curr >>= fun next =>
            writeFatEntry curr 0 >>= fun _ => freeFrom n next := if_pos hgo
        rw [hrun, within_readFatEntry_bind, within_writeFatEntry_bind hg hP, ih]
        constructor
        · rintro ⟨hfat, hrest⟩
          exact hrest.of_freed hg hfat
        · intro h
          exact ⟨h 0 (by omega) fun j hj => by rwa [Nat.le_zero.1 hj], h.freed hg hgo⟩
      · have hrun : freeFrom (n + 1) curr = pure () := if_neg hgo
        rw [hrun]
        exact iff_of_true ((quiet_pure _).within P g kmalloc d) (.of_not_freeable hgo)

theorem within_freeChain (hg : g.Valid) (hP : ∀ lba, P .fatUpdate lba ↔ g.InFat lba)
    (start : Nat) (d : Disk) :
    (freeChain start).Within P g kmalloc d ↔ FreesInFat g d g.totalClusters start := by
  rw [freeChain, within_geometry_bind]
  by_cases hskip : start < 2 ∨ start ≥ 0xFFF8
  · rw [if_pos hskip]
    refine iff_of_true ((quiet_pure _).within P g kmalloc d) (.of_not_freeable ?_)
    rintro ⟨hlow, hhigh⟩
    omega
  · rw [if_neg hskip]
    exact within_freeFrom hg hP _ _ d

theorem within_when_freeChain (hg : g.Valid) (hP : ∀ lba, P .fatUpdate lba ↔ g.InFat lba)
    (start : Nat) (d : Disk) :
    (Fs.when (2 ≤ start) (freeChain start)).Within P g kmalloc d ↔
      FreesInFat g d g.totalClusters start := by
  unfold Fs.when
  by_cases hstart : 2 ≤ start
  · rw [if_pos hstart]
    exact within_freeChain hg hP start d
  · rw [if_neg hstart]
    exact iff_of_true ((quiet_pure _).within P g kmalloc d)
      (.of_not_freeable fun h => hstart h.1)

/-! ## Records and entries -/

/-- A write whose outcome is all that is left to report. -/
theorem within_write_pure {α : Type} {site : Site} {lba : Nat} {buf : Sector} {a b : α} :
    (ataWriteSector site lba buf >>= fun ok => if ok then pure a else pure b : Fs α).Within P g
      kmalloc d ↔ P site lba := by
  rw [within_write_bind, if_pos rfl]
  exact and_iff_left ((quiet_pure _).within P g kmalloc _)

/-- **Records.**  They are written from their first sector on up to the sector behind them. -/
theorem within_writeRecords (records : List Record) (currentSec : Nat) (secBuf : Sector)
    {slot : Nat} (hslot : slot < 16) (d : Disk) :
    (writeRecords records currentSec secBuf slot).Within P g kmalloc d ↔
      ∀ j ≤ (slot + records.length) / 16, P .records (currentSec + j) := by
  induction records generalizing currentSec secBuf slot d with
  | nil =>
      rw [writeRecords, within_write_pure]
      have hlast : (slot + ([] : List Record).length) / 16 = 0 := Nat.div_eq_of_lt hslot
      simp only [hlast, Nat.le_zero, forall_eq, Nat.add_zero]
  | cons record records ih =>
      rw [writeRecords]
      by_cases hend : slot + 1 ≥ 16
      · have hlast : (slot + (record :: records).length) / 16 = (0 + records.length) / 16 + 1 := by
          rw [List.length_cons]
          omega
        rw [if_pos hend, within_write_bind, if_pos rfl, within_read_bind, ih _ _ (by omega), hlast]
        constructor
        · rintro ⟨hfirst, hrest⟩ j hj
          cases j with
          | zero => exact hfirst
          | succ j =>
              rw [Nat.add_comm j 1, ← Nat.add_assoc]
              exact hrest j (by omega)
        · intro h
          refine ⟨h 0 (by omega), fun j hj => ?_⟩
          rw [Nat.add_assoc, Nat.add_comm 1 j]
          exact h (j + 1) (by omega)
      · rw [if_neg hend, ih _ _ (by omega), List.length_cons, Nat.add_right_comm, Nat.add_assoc]

theorem within_updateDir (found : Found) (entry : Record) (d : Disk) :
    (updateDir found entry).Within P g kmalloc d ↔ P .entryUpdate found.sector := by
  rw [updateDir, within_read_bind]
  exact within_write_pure

theorem within_markDeleted (found : Found) (d : Disk) :
    (markDeleted found).Within P g kmalloc d ↔ P .entryUpdate found.sector := by
  rw [markDeleted, within_read_bind]
  exact within_write_pure

/-! ## Data -/

/-- **Data sectors.**  Those that the rest of the data reaches are written. -/
theorem within_writeSectors (data : List UInt8) (n lba : Nat) {secOffset b : Nat}
    (hoffset : secOffset < 512) (hb : b < data.length) (d : Disk) :
    (writeSectors data n lba secOffset b).Within P g kmalloc d ↔
      ∀ s < n, b + 512 * s < data.length + secOffset → P .data (lba + s) := by
  induction n generalizing lba secOffset b d with
  | zero => exact iff_of_true ((quiet_pure _).within P g kmalloc d) fun s hs => absurd hs (by omega)
  | succ n ih =>
      rw [writeSectors, if_pos hb]
      have hread : ∃ buf, (if 0 < secOffset ∨ data.length - b < 512 then
          ataReadSector .data lba else pure (some fun _ => 0) : Fs (Option Sector)).run g kmalloc
            (clean d) 0 = .ret (some buf, clean d) := by
        split
        · exact ⟨_, rfl⟩
        · exact ⟨_, rfl⟩
      obtain ⟨buf, hread⟩ := hread
      have hquiet : (if 0 < secOffset ∨ data.length - b < 512 then
          ataReadSector .data lba else pure (some fun _ => 0) : Fs (Option Sector)).Quiet :=
        quiet_ite (quiet_read _ _) (quiet_pure _)
      have htotal : (if 0 < secOffset ∨ data.length - b < 512 then
          ataReadSector .data lba else pure (some fun _ => 0) : Fs (Option Sector)).Total :=
        total_ite (total_read _ _) (total_pure _)
      rw [htotal.within_bind hread, and_iff_right (hquiet.within P g kmalloc d), within_write_bind,
        if_pos rfl]
      by_cases hmore : b + min (512 - secOffset) (data.length - b) < data.length
      · rw [ih _ (by omega) hmore]
        constructor
        · rintro ⟨hfirst, hrest⟩ s hs hreach
          cases s with
          | zero => exact hfirst
          | succ s =>
              rw [Nat.add_comm s 1, ← Nat.add_assoc]
              exact hrest s (by omega) (by omega)
        · intro h
          refine ⟨h 0 (by omega) (by omega), fun s hs hreach => ?_⟩
          rw [Nat.add_assoc, Nat.add_comm 1 s]
          exact h (s + 1) (by omega) (by omega)
      · have hdone : (writeSectors data n (lba + 1) 0
            (b + min (512 - secOffset) (data.length - b))).Within P g kmalloc (d.set lba
              (patch buf secOffset ((data.drop b).take (min (512 - secOffset)
                (data.length - b))))) := by
          cases n with
          | zero => exact (quiet_pure _).within P g kmalloc _
          | succ n =>
              rw [writeSectors, if_neg hmore]
              exact (quiet_pure _).within P g kmalloc _
        rw [and_iff_left hdone]
        constructor
        · intro hfirst s hs hreach
          obtain rfl : s = 0 := by omega
          exact hfirst
        · exact fun h => h 0 (by omega) (by omega)

section Rounds

variable {st : WriteState} {data : List UInt8} {append : Bool} {fileSize : Nat}

/-- The state of the write loop after a new cluster has been linked to the chain. -/
def WriteState.extended (st : WriteState) (c : Nat) : WriteState :=
  { st with
    firstCluster := if st.firstCluster = 0 then c else st.firstCluster
    currCluster := c
    prevCluster := c }

/-- The disk after cluster `c` has been allocated and linked behind `prev`. -/
def linked (g : Geometry) (d : Disk) (prev c : Nat) : Disk :=
  if 2 ≤ prev then setFat g (setFat g d c 0xFFFF) prev c else setFat g d c 0xFFFF

/-- What `nextCluster` does at a cluster boundary. -/
theorem nextCluster_clean (hg : g.Valid) (kmalloc : Nat → Option (Nat → UInt8)) {offset : Nat}
    (h : offset = 0 ∨ st.currCluster < 2) (d : Disk) :
    (∃ c, LeastFree g d c ∧ ∀ n, (nextCluster offset st).run g kmalloc (clean d) n =
      .ret (some (st.extended c), clean (linked g d st.prevCluster c))) ∨
    (NoneFree g d ∧ ∀ n, (nextCluster offset st).run g kmalloc (clean d) n =
      .ret (none, clean d)) := by
  have hg' : (⟨g, 0, kmalloc⟩ : Env).geom.Valid := hg
  simp only [(total_nextCluster offset st).run_eq g kmalloc (clean d), forall_const]
  rw [Fs.run, nextCluster, if_pos h]
  rcases allocCluster_clean hg' d with ⟨c, hc, halloc⟩ | ⟨hnone, halloc⟩
  · have hc₀ : c ≠ 0 := by
      have := hc.isCluster.1
      omega
    refine Or.inl ⟨c, hc, ?_⟩
    simp only [Fs.bind_apply, halloc, Exec.ret_bind, if_neg hc₀]
    unfold Fs.when linked
    by_cases hprev : 2 ≤ st.prevCluster
    · simp only [if_pos hprev, Fs.bind_apply, writeFatEntry_clean, Exec.ret_bind]
      rfl
    · simp only [if_neg hprev]
      rfl
  · refine Or.inr ⟨hnone, ?_⟩
    simp only [Fs.bind_apply, halloc, Exec.ret_bind, if_true]
    rfl

/-- A new cluster is linked inside the FAT when the entry of the last one is there. -/
theorem within_nextCluster (hg : g.Valid) (hP : ∀ lba, P .fatUpdate lba ↔ g.InFat lba)
    {offset : Nat} (h : offset = 0 ∨ st.currCluster < 2) (d : Disk) :
    (nextCluster offset st).Within P g kmalloc d ↔
      (¬ NoneFree g d → 2 ≤ st.prevCluster → st.prevCluster < 256 * g.sectorsPerFat) := by
  rw [nextCluster, if_pos h]
  have hg' : (⟨g, 0, kmalloc⟩ : Env).geom.Valid := hg
  rcases allocCluster_clean hg' d with ⟨c, hc, halloc⟩ | ⟨hnone, halloc⟩
  · have hc₀ : c ≠ 0 := by
      have := hc.isCluster.1
      omega
    have hsome : ¬ NoneFree g d := fun hnone => hnone c hc.isCluster hc.free
    rw [total_allocCluster.within_bind halloc, and_iff_right (within_allocCluster hg hP d),
      if_neg hc₀]
    have hlink : (Fs.when (2 ≤ st.prevCluster) do
        let _ ← writeFatEntry st.prevCluster c).Total :=
      total_when ((total_writeFatEntry _ _).bind fun _ => total_pure _)
    obtain ⟨a, d', hrun⟩ := hlink.runs g kmalloc (setFat g d c 0xFFFF)
    refine (hlink.within_bind (hrun 0)).trans ?_
    rw [and_iff_left ((quiet_pure _).within P g kmalloc d')]
    unfold Fs.when
    by_cases hprev : 2 ≤ st.prevCluster
    · rw [if_pos hprev, within_writeFatEntry_bind hg hP,
        and_iff_left ((quiet_pure _).within P g kmalloc _)]
      exact ⟨fun hlt _ _ => hlt, fun h => h hsome hprev⟩
    · rw [if_neg hprev]
      exact iff_of_true ((quiet_pure _).within P g kmalloc _) fun _ h => absurd h hprev
  · rw [total_allocCluster.within_bind halloc, if_pos rfl]
    exact iff_of_true ⟨within_allocCluster hg hP d, (quiet_pure _).within P g kmalloc d⟩
      fun hsome => absurd hnone hsome

/-- The offset in its first cluster at which a round of the write loop begins. -/
def roundOffset (g : Geometry) (append : Bool) (fileSize : Nat) (st : WriteState) : Nat :=
  if append ∧ 0 < fileSize ∧ st.bytesWritten = 0 then fileSize % g.clusterBytes else 0

/-- A round of the write loop behind the choice of its cluster. -/
def fillCluster (data : List UInt8) (offset : Nat) (g : Geometry) :
    Option WriteState → Fs (WriteState ⊕ Except Int Nat)
  | none => pure (.inr (.error (-enospc)))
  | some st => do
      match ← writeSectors data (g.sectorsPerCluster - offset / 512)
          (g.clusterLba st.currCluster + offset / 512) (offset % 512) st.bytesWritten with
      | .error res => pure (.inr (.error res))
      | .ok bytesWritten => pure (.inl { st with bytesWritten := bytesWritten })

theorem writeRound_eq (data : List UInt8) (append : Bool) (fileSize : Nat) (st : WriteState) :
    writeRound data append fileSize st = Fs.geometry >>= fun g =>
      if st.bytesWritten < data.length then
        nextCluster (roundOffset g append fileSize st) st >>=
          fillCluster data (roundOffset g append fileSize st) g
      else pure (.inr (.ok st.firstCluster)) := rfl

/-- What the sectors of one cluster take of the data, and which sectors they change. -/
theorem writeSectors_clean (data : List UInt8) : ∀ (n lba secOffset b : Nat) (d : Disk),
    secOffset < 512 → b ≤ data.length →
    ∃ d', (∀ env, writeSectors data n lba secOffset b env (clean d) =
        .ret (.ok (min data.length (b + (512 * n - secOffset))), clean d')) ∧
      ∀ l, l < lba ∨ lba + n ≤ l → d' l = d l := by
  intro n
  induction n with
  | zero =>
      intro lba secOffset b d _ hb
      refine ⟨d, fun env => ?_, fun _ _ => rfl⟩
      rw [show min data.length (b + (512 * 0 - secOffset)) = b by omega]
      rfl
  | succ n ih =>
      intro lba secOffset b d hoffset hb
      by_cases hmore : b < data.length
      · generalize hbuf : (if 0 < secOffset ∨ data.length - b < 512 then d lba
          else fun _ => 0 : Sector) = buf
        obtain ⟨d', hrun, hframe⟩ := ih (lba + 1) 0 (b + min (512 - secOffset) (data.length - b))
          (d.set lba (patch buf secOffset ((data.drop b).take
            (min (512 - secOffset) (data.length - b))))) (by omega) (by omega)
        refine ⟨d', fun env => ?_, fun l hl => ?_⟩
        · have hread : (if 0 < secOffset ∨ data.length - b < 512 then ataReadSector .data lba
              else pure (some fun _ => 0) : Fs (Option Sector)) env (clean d) =
              .ret (some buf, clean d) := by
            rw [← hbuf]
            split
            · rfl
            · rfl
          rw [writeSectors, if_pos hmore]
          simp only [Fs.bind_apply, hread, Exec.ret_bind, ataWriteSector_clean, if_true, hrun env]
          congr 3
          omega
        · rw [hframe l (by omega), Disk.set_of_ne (by omega)]
      · refine ⟨d, fun env => ?_, fun _ _ => rfl⟩
        rw [writeSectors, if_neg hmore,
          show min data.length (b + (512 * (n + 1) - secOffset)) = b by omega]
        rfl

/-- The bytes that have been written after a round. -/
def filled (g : Geometry) (data : List UInt8) (offset b : Nat) : Nat :=
  min data.length (b + (g.clusterBytes - offset))

/-- What a round of the write loop does with the cluster it has got. -/
theorem fillCluster_clean (kmalloc : Nat → Option (Nat → UInt8)) (st : WriteState) {offset : Nat}
    (hoffset : offset < g.clusterBytes) (hb : st.bytesWritten ≤ data.length) (d : Disk) :
    ∃ d', (∀ n, (fillCluster data offset g (some st)).run g kmalloc (clean d) n =
        .ret (.inl { st with bytesWritten := filled g data offset st.bytesWritten }, clean d')) ∧
      ∀ l, ¬ g.InCluster st.currCluster l → d' l = d l := by
  obtain ⟨d', hrun, hframe⟩ := writeSectors_clean data (g.sectorsPerCluster - offset / 512)
    (g.clusterLba st.currCluster + offset / 512) _ _ d (Nat.mod_lt offset (by omega)) hb
  unfold Geometry.clusterBytes at hoffset
  refine ⟨d', fun n => ?_, fun l hl => hframe l ?_⟩
  · have hfilled : min data.length (st.bytesWritten +
        (512 * (g.sectorsPerCluster - offset / 512) - offset % 512)) =
        filled g data offset st.bytesWritten := by
      unfold filled Geometry.clusterBytes
      congr 2
      omega
    simp only [Fs.run, fillCluster, Fs.bind_apply, hrun, hfilled, Exec.ret_bind]
    rfl
  · unfold Geometry.InCluster at hl
    omega

theorem within_fillCluster {offset : Nat} (hb : st.bytesWritten < data.length) (d : Disk) :
    (fillCluster data offset g (some st)).Within P g kmalloc d ↔
      ∀ s < g.sectorsPerCluster - offset / 512,
        st.bytesWritten + 512 * s < data.length + offset % 512 →
        P .data (g.clusterLba st.currCluster + offset / 512 + s) := by
  obtain ⟨d', hrun, -⟩ := writeSectors_clean data (g.sectorsPerCluster - offset / 512)
    (g.clusterLba st.currCluster + offset / 512) _ _ d (Nat.mod_lt offset (by omega)) hb.le
  rw [fillCluster, (total_writeSectors _ _ _ _ _).within_bind (n := 0) (hrun ⟨g, 0, kmalloc⟩),
    and_iff_left ((quiet_pure _).within P g kmalloc d')]
  exact within_writeSectors data _ _ (Nat.mod_lt _ (by omega)) hb d

theorem roundOffset_lt (g : Geometry) (append : Bool) (fileSize : Nat) (st : WriteState) :
    roundOffset g append fileSize st < g.clusterBytes := by
  unfold roundOffset
  split
  · exact Nat.mod_lt _ g.clusterBytes_pos
  · exact g.clusterBytes_pos

/-- Behind its first round the write loop begins each round with a new cluster. -/
theorem roundOffset_eq_zero (h : 0 < st.bytesWritten) :
    roundOffset g append fileSize st = 0 := if_neg fun hfirst => by omega

/-- The state after a round that has filled up its cluster. -/
def WriteState.advanced (g : Geometry) (data : List UInt8) (append : Bool) (fileSize : Nat)
    (st : WriteState) : WriteState :=
  { st with
    bytesWritten := filled g data (roundOffset g append fileSize st) st.bytesWritten }

theorem filled_lt {offset b : Nat} (hoffset : offset < g.clusterBytes) (hb : b < data.length) :
    b < filled g data offset b ∧ filled g data offset b ≤ data.length := by
  unfold filled
  omega

/-- The write loop is through with the data. -/
theorem writeRound_done (hb : ¬ st.bytesWritten < data.length) (n : Nat) :
    (writeRound data append fileSize st).run g kmalloc (clean d) n =
      .ret (.inr (.ok st.firstCluster), clean d) := by
  rw [writeRound_eq, Fs.run]
  simp only [Fs.bind_apply, Fs.geometry_apply, Exec.ret_bind, if_neg hb]
  rfl

/-- A round that begins with a new cluster. -/
theorem writeRound_boundary (hg : g.Valid) (kmalloc : Nat → Option (Nat → UInt8))
    (hb : st.bytesWritten < data.length)
    (h : roundOffset g append fileSize st = 0 ∨ st.currCluster < 2) (d : Disk) :
    (∃ c d', LeastFree g d c ∧
      (∀ n, (writeRound data append fileSize st).run g kmalloc (clean d) n =
        .ret (.inl ((st.extended c).advanced g data append fileSize), clean d')) ∧
      ∀ l, ¬ g.InCluster c l → d' l = linked g d st.prevCluster c l) ∨
    (NoneFree g d ∧ ∀ n, (writeRound data append fileSize st).run g kmalloc (clean d) n =
      .ret (.inr (.error (-enospc)), clean d)) := by
  have hrun : ∀ n {r d'}, (nextCluster (roundOffset g append fileSize st) st).run g kmalloc
      (clean d) n = .ret (r, clean d') →
      (writeRound data append fileSize st).run g kmalloc (clean d) n =
        (fillCluster data (roundOffset g append fileSize st) g r).run g kmalloc (clean d') n := by
    intro n r d' hn
    rw [Fs.run] at hn
    rw [writeRound_eq, Fs.run]
    simp only [Fs.bind_apply, Fs.geometry_apply, Exec.ret_bind, if_pos hb, hn]
    rfl
  rcases nextCluster_clean hg kmalloc h d with ⟨c, hc, hnext⟩ | ⟨hnone, hnext⟩
  · obtain ⟨d', hfill, hframe⟩ := fillCluster_clean kmalloc (st.extended c)
      (roundOffset_lt g append fileSize st) hb.le (linked g d st.prevCluster c)
    exact Or.inl ⟨c, d', hc, fun n => (hrun n (hnext n)).trans (hfill n), hframe⟩
  · exact Or.inr ⟨hnone, fun n => hrun n (hnext n)⟩

/-- A round that goes on in the last cluster of the file. -/
theorem writeRound_inside (kmalloc : Nat → Option (Nat → UInt8))
    (hb : st.bytesWritten < data.length)
    (h : ¬ (roundOffset g append fileSize st = 0 ∨ st.currCluster < 2)) (d : Disk) :
    ∃ d', (∀ n, (writeRound data append fileSize st).run g kmalloc (clean d) n =
        .ret (.inl (st.advanced g data append fileSize), clean d')) ∧
      ∀ l, ¬ g.InCluster st.currCluster l → d' l = d l := by
  obtain ⟨d', hfill, hframe⟩ := fillCluster_clean kmalloc st (roundOffset_lt g append fileSize st)
    hb.le d
  refine ⟨d', fun n => ?_, hframe⟩
  have hnext : nextCluster (roundOffset g append fileSize st) st = pure (some st) := if_neg h
  rw [writeRound_eq, Fs.run]
  simp only [Fs.bind_apply, Fs.geometry_apply, Exec.ret_bind, if_pos hb, hnext]
  exact hfill n

/-- A round that begins with a new cluster stays inside when the last cluster can be linked to
it. -/
theorem within_writeRound_boundary (hg : g.Valid) (hP : ∀ lba, P .fatUpdate lba ↔ g.InFat lba)
    (hdata : ∀ c lba, g.IsCluster c → g.InCluster c lba → P .data lba)
    (hb : st.bytesWritten < data.length)
    (h : roundOffset g append fileSize st = 0 ∨ st.currCluster < 2) (d : Disk) :
    (writeRound data append fileSize st).Within P g kmalloc d ↔
      (¬ NoneFree g d → 2 ≤ st.prevCluster → st.prevCluster < 256 * g.sectorsPerFat) := by
  rw [writeRound_eq, within_geometry_bind, if_pos hb]
  rcases nextCluster_clean hg kmalloc h d with ⟨c, hc, hnext⟩ | ⟨hnone, hnext⟩
  · rw [(total_nextCluster _ _).within_bind (hnext 0), within_nextCluster hg hP h]
    have hbytes : (st.extended c).bytesWritten < data.length := hb
    refine and_iff_left ((within_fillCluster hbytes _).2 fun s hs _ => ?_)
    apply hdata c _ hc.isCluster
    show g.clusterLba c ≤ g.clusterLba c + _ + s ∧ g.clusterLba c + _ + s < _
    omega
  · rw [(total_nextCluster _ _).within_bind (hnext 0), within_nextCluster hg hP h]
    exact and_iff_left ((quiet_pure _).within P g kmalloc d)

/-- A round in the last cluster of the file stays inside when the sectors of that cluster are
inside that the data reaches. -/
theorem within_writeRound_inside (hb : st.bytesWritten < data.length)
    (h : ¬ (roundOffset g append fileSize st = 0 ∨ st.currCluster < 2)) (d : Disk) :
    (writeRound data append fileSize st).Within P g kmalloc d ↔
      ∀ s < g.sectorsPerCluster - roundOffset g append fileSize st / 512,
        st.bytesWritten + 512 * s < data.length + roundOffset g append fileSize st % 512 →
        P .data (g.clusterLba st.currCluster + roundOffset g append fileSize st / 512 + s) := by
  have hnext : nextCluster (roundOffset g append fileSize st) st = pure (some st) := if_neg h
  rw [writeRound_eq, within_geometry_bind, if_pos hb, hnext]
  exact within_fillCluster hb d

theorem regular_writeRound (data : List UInt8) (append : Bool) (fileSize : Nat) (s : WriteState) :
    (writeRound data append fileSize s).Regular :=
  (total_writeRound data append fileSize s).regular

/-- The loop behind a round of which the result is known. -/
theorem within_writeLoop_next {d' : Disk} {st' : WriteState}
    (hrun : ∀ n, (writeRound data append fileSize st).run g kmalloc (clean d) n =
      .ret (.inl st', clean d')) :
    (Fs.loop (writeRound data append fileSize) st).Within P g kmalloc d ↔
      (writeRound data append fileSize st).Within P g kmalloc d ∧
        (Fs.loop (writeRound data append fileSize) st').Within P g kmalloc d' := by
  rw [within_loop (regular_writeRound data append fileSize)]
  refine and_congr_right fun _ => ?_
  constructor
  · exact fun h => h st' d' ⟨0, hrun 0⟩
  · rintro h s₁ d₁ ⟨n, hn⟩
    obtain ⟨hs, hd⟩ := Prod.mk.inj (Exec.ret.inj ((hrun n).symm.trans hn))
    obtain rfl : st' = s₁ := Sum.inl.inj hs
    obtain rfl : d' = d₁ := congrArg Io.disk hd
    exact h

/-- A loop whose first round leaves it. -/
theorem within_writeLoop_last {r : Except Int Nat}
    (hrun : ∀ n, (writeRound data append fileSize st).run g kmalloc (clean d) n =
      .ret (.inr r, clean d)) :
    (Fs.loop (writeRound data append fileSize) st).Within P g kmalloc d ↔
      (writeRound data append fileSize st).Within P g kmalloc d := by
  rw [within_loop (regular_writeRound data append fileSize), and_iff_left]
  rintro s₁ d₁ ⟨n, hn⟩
  exact absurd (Prod.mk.inj (Exec.ret.inj ((hrun n).symm.trans hn))).1 (by simp)

/-- A loop that is through with the data. -/
theorem within_writeLoop_done (hb : ¬ st.bytesWritten < data.length) (d : Disk) :
    (Fs.loop (writeRound data append fileSize) st).Within P g kmalloc d := by
  refine (within_writeLoop_last (writeRound_done hb)).2 ?_
  rw [writeRound_eq, within_geometry_bind, if_neg hb]
  exact (quiet_pure _).within P g kmalloc d

/-- **The write loop.**  From a cluster boundary on it writes clusters it allocates and nothing
else, when the last cluster can be linked to them. -/
theorem within_rounds (hg : g.Valid) (hP : ∀ lba, P .fatUpdate lba ↔ g.InFat lba)
    (hdata : ∀ c lba, g.IsCluster c → g.InCluster c lba → P .data lba) :
    ∀ (st : WriteState) (d : Disk), roundOffset g append fileSize st = 0 →
      (2 ≤ st.prevCluster → st.prevCluster < 256 * g.sectorsPerFat) →
      (Fs.loop (writeRound data append fileSize) st).Within P g kmalloc d := by
  intro st
  induction hk : data.length - st.bytesWritten using Nat.strong_induction_on generalizing st with
  | _ k ih =>
      intro d hoffset hprev
      by_cases hb : st.bytesWritten < data.length
      · have hround : (writeRound data append fileSize st).Within P g kmalloc d :=
          (within_writeRound_boundary hg hP hdata hb (Or.inl hoffset) d).2 fun _ => hprev
        rcases writeRound_boundary hg kmalloc hb (Or.inl hoffset) d with
          ⟨c, d', hc, hrun, -⟩ | ⟨-, hrun⟩
        · have hlt := filled_lt (roundOffset_lt g append fileSize st) hb
          have hbytes : ((st.extended c).advanced g data append fileSize).bytesWritten =
              filled g data (roundOffset g append fileSize st) st.bytesWritten := rfl
          refine (within_writeLoop_next hrun).2 ⟨hround, ih _ ?_ _ rfl d' ?_ fun _ => ?_⟩
          · omega
          · exact roundOffset_eq_zero (by omega)
          · exact IsCluster.lt_fat hg hc.isCluster
        · exact (within_writeLoop_last hrun).2 hround
      · exact within_writeLoop_done hb d

/-! ### What the write loop yields -/

theorem yields_writeLoop_next {d' : Disk} {st' : WriteState} {p : Except Int Nat × Io}
    (hrun : ∀ n, (writeRound data append fileSize st).run g kmalloc (clean d) n =
      .ret (.inl st', clean d')) :
    Yields ((Fs.loop (writeRound data append fileSize) st).run g kmalloc (clean d)) p ↔
      Yields ((Fs.loop (writeRound data append fileSize) st').run g kmalloc (clean d')) p := by
  have hmono := mono_round (regular_writeRound data append fileSize) g kmalloc
  have hnext : Yields (fun n => round (writeRound data append fileSize) ⟨g, n, kmalloc⟩
      (st, clean d)) (.inl (st', clean d')) := ⟨0, round_of_ret (hrun 0)⟩
  constructor
  · intro h
    rcases (Exec.yields_loop hmono).1 h with hleave | ⟨s, hs, hrest⟩
    · exact absurd (hnext.unique (hmono _) hleave) (by simp)
    · obtain rfl := Sum.inl.inj (hnext.unique (hmono _) hs)
      exact hrest
  · exact fun h => (Exec.yields_loop hmono).2 (Or.inr ⟨_, hnext, h⟩)

theorem yields_writeLoop_last {r : Except Int Nat} {p : Except Int Nat × Io}
    (hrun : ∀ n, (writeRound data append fileSize st).run g kmalloc (clean d) n =
      .ret (.inr r, clean d)) :
    Yields ((Fs.loop (writeRound data append fileSize) st).run g kmalloc (clean d)) p ↔
      p = (r, clean d) := by
  have hmono := mono_round (regular_writeRound data append fileSize) g kmalloc
  have hlast : Yields (fun n => round (writeRound data append fileSize) ⟨g, n, kmalloc⟩
      (st, clean d)) (.inr (r, clean d)) := ⟨0, round_of_ret (hrun 0)⟩
  constructor
  · intro h
    rcases (Exec.yields_loop hmono).1 h with hleave | ⟨s, hs, -⟩
    · exact Sum.inr.inj (hleave.unique (hmono _) hlast)
    · exact absurd (hlast.unique (hmono _) hs) (by simp)
  · rintro rfl
    exact (Exec.yields_loop hmono).2 (Or.inl hlast)

end Rounds

end Fat16

end BenmoshOS
