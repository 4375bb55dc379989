import BenmoshOS.Fat16.Fence
import BenmoshOS.Fat16.Table

/-!
# FAT16: the copies of the FAT

`fat16_write_fat_entry` changes an entry in the sector of the first copy and stores that
sector in every copy.  When the copies are the same, they stay the same and together are
one array of 16-bit entries.  Copies that have drifted apart are brought together again a
sector at a time, by the entry that is written next.

* `fat_mirrored_array` — one array, on a disk whose copies agree.
* `allocCluster_spec` — what an allocation does, on every disk.
-/

namespace BenmoshOS

namespace Fat16

/-- All copies of the FAT are the same. -/
def Mirrored (g : Geometry) (d : Disk) : Prop :=
  ∀ i, i < g.fatCount → ∀ s, s < g.sectorsPerFat → ∀ k, k < 512 →
    d (g.fatStartSector + i * g.sectorsPerFat + s) k = d (g.fatStartSector + s) k

/-- The sector belongs to a copy of the FAT. -/
def Geometry.InFats (g : Geometry) (lba : Nat) : Prop :=
  g.fatStartSector ≤ lba ∧ lba < g.fatStartSector + g.fatCount * g.sectorsPerFat

variable {env : Env} {g : Geometry} {d : Disk} {c v : Nat}

/-- In agreeing copies every entry is that of the first one. -/
theorem Mirrored.fatCopy_eq (h : Mirrored g d) {i : Nat} (hi : i < g.fatCount)
    (hc : c < 256 * g.sectorsPerFat) : fatCopy g d i c = fat g d c := by
  have hs : c * 2 / 512 < g.sectorsPerFat := by omega
  exact u16_congr (h i hi _ hs _ (by omega)) (h i hi _ hs _ (by omega))

/-- A write keeps the copies in agreement. -/
theorem Mirrored.setFat (h : Mirrored g d) (hc : c < 256 * g.sectorsPerFat) :
    Mirrored g (setFat g d c v) := by
  intro i hi s hs k hk
  have hfirst := setFat_copy (d := d) (v := v) (Nat.zero_lt_of_lt hi) hc hs
  rw [Nat.zero_mul, Nat.add_zero] at hfirst
  rw [setFat_copy hi hc hs, hfirst]
  by_cases hsec : s = c * 2 / 512
  · rw [if_pos hsec, if_pos hsec]
  · rw [if_neg hsec, if_neg hsec]
    exact h i hi s hs k hk

/-- A write to the FAT changes its copies only. -/
theorem setFat_of_not_inFats (hc : c < 256 * g.sectorsPerFat) {lba : Nat} (h : ¬ g.InFats lba) :
    setFat g d c v lba = d lba := by
  by_cases hlow : lba < g.fatStartSector
  · refine if_neg ?_
    rintro ⟨i, -, rfl⟩
    omega
  · refine setFat_of_le hc ?_
    rw [g.rootDirSector_eq]
    exact Nat.le_of_not_lt fun hlt => h ⟨Nat.le_of_not_lt hlow, hlt⟩

/-- A volume of ten clusters with two copies of a FAT of one sector. -/
def twoFats : Geometry := .small 1 1 2 10 (by decide)

/-- **The mirrored FAT is an array.**  On a disk whose FAT copies agree, writing entry `c`
makes exactly that entry `v` for every later read; the copies agree again, and the rest of
the disk is as it was. -/
theorem fat_mirrored_array (site : Site) (hcopies : 1 ≤ env.geom.fatCount)
    (hmir : Mirrored env.geom d) (hc : c < 256 * env.geom.sectorsPerFat) (hv : v < 65536) :
    ∃ d', writeFatEntry c v env (clean d) = .ret (eok, clean d') ∧
      Mirrored env.geom d' ∧
      (∀ c', c' < 256 * env.geom.sectorsPerFat → ∃ old,
        readFatEntry site c' env (clean d) = .ret (old, clean d) ∧
        readFatEntry site c' env (clean d') = .ret (if c' = c then v else old, clean d')) ∧
      ∀ lba, ¬ env.geom.InFats lba → d' lba = d lba := by
  refine ⟨setFat env.geom d c v, writeFatEntry_clean c v, hmir.setFat hc, fun c' hc' => ?_,
    fun lba hlba => setFat_of_not_inFats hc hlba⟩
  refine ⟨fat env.geom d c', readFatEntry_clean site c', ?_⟩
  rw [readFatEntry_clean, fat_setFat_of_pos hcopies hc hc' hv]

/-- Cluster 4 is linked to cluster 5. -/
theorem fat_mirrored_array_link :
    let env : Env := ⟨twoFats, 0, fun _ => none⟩
    ∃ d', writeFatEntry 4 5 env (clean fun _ _ => 0) = .ret (eok, clean d') ∧
      Mirrored twoFats d' ∧
      (∀ c', c' < 256 * 1 → ∃ old,
        readFatEntry .loadWalk c' env (clean fun _ _ => 0) = .ret (old, clean fun _ _ => 0) ∧
        readFatEntry .loadWalk c' env (clean d') = .ret (if c' = 4 then 5 else old, clean d')) ∧
      ∀ lba, ¬ twoFats.InFats lba → d' lba = fun _ => 0 :=
  fat_mirrored_array .loadWalk (by decide) (fun _ _ _ _ _ _ => rfl) (by decide) (by decide)

/-! ## Allocation -/

/-- What an allocation of cluster `c` makes of the disk: entry `c` is the end mark in every
copy, the first copy is otherwise the same, and the other copies take over what the first
one says in the rest of the sector of entry `c`. -/
structure Marked (g : Geometry) (d : Disk) (c : Nat) (d' : Disk) : Prop where
  mark : ∀ i, i < g.fatCount → fatCopy g d' i c = 0xFFFF
  first : ∀ c', c' < 256 * g.sectorsPerFat → c' ≠ c → fat g d' c' = fat g d c'
  sector : ∀ i c', i < g.fatCount → c' < 256 * g.sectorsPerFat → c' ≠ c →
    c' * 2 / 512 = c * 2 / 512 → fatCopy g d' i c' = fat g d c'
  elsewhere : ∀ i c', i < g.fatCount → c' < 256 * g.sectorsPerFat →
    c' * 2 / 512 ≠ c * 2 / 512 → fatCopy g d' i c' = fatCopy g d i c'
  outside : ∀ lba, ¬ g.InFats lba → d' lba = d lba

theorem marked_setFat (hc : c < 256 * g.sectorsPerFat) : Marked g d c (setFat g d c 0xFFFF) where
  mark i hi := by
    rw [fatCopy_setFat hi hc hc (by decide), if_pos rfl]
  first c' hc' hne := fat_setFat_of_ne hc hc' (by decide) hne
  sector i c' hi hc' hne hsec := by
    rw [fatCopy_setFat hi hc hc' (by decide), if_neg hne, if_pos hsec]
  elsewhere i c' hi hc' hsec := by
    have hne : c' ≠ c := by
      rintro rfl
      exact hsec rfl
    rw [fatCopy_setFat hi hc hc' (by decide), if_neg hne, if_neg hsec]
  outside _ hlba := setFat_of_not_inFats hc hlba

/-- No other entry of any copy changes when the copies agree. -/
theorem Marked.fatCopy_eq {d' : Disk} (h : Marked g d c d') (hmir : Mirrored g d) {i c' : Nat}
    (hi : i < g.fatCount) (hc' : c' < 256 * g.sectorsPerFat) (hne : c' ≠ c) :
    fatCopy g d' i c' = fatCopy g d i c' := by
  by_cases hsec : c' * 2 / 512 = c * 2 / 512
  · rw [h.sector i c' hi hc' hne hsec, hmir.fatCopy_eq hi hc']
  · exact h.elsewhere i c' hi hc' hsec

/-- `fat16_alloc_cluster` on a disk that lets it write only inside the fence `F`. -/
theorem allocCluster_scan (hclusters : env.geom.totalClusters ≤ 65524)
    (hfat : env.geom.totalClusters + 2 ≤ 256 * env.geom.sectorsPerFat) (F : Site → Nat → Bool)
    (d : Disk) :
    (∃ c, LeastFree env.geom d c ∧ allocCluster env (fenced F d) =
      (writeFatEntry c 0xFFFF >>= fun _ => pure c) env (fenced F d)) ∨
    (NoneFree env.geom d ∧ allocCluster env (fenced F d) = .ret (0, fenced F d)) :=
  allocFrom_scan (lt_of_le_of_lt (Nat.add_le_add_right hclusters 2) (by decide)) hfat F
    env.geom.sectorsPerFat 0 (Nat.zero_add _) (by simp) fun c' _ h => by simp at h

/-- **Allocation on every disk.**  The least free cluster is returned and marked in every
copy of the FAT; the first copy has no other change, and none of the copies has when they
agree.  The result is `0` exactly when no cluster is free, and then nothing is written: not
even a disk that allows no write stops the call. -/
theorem allocCluster_spec (hclusters : env.geom.totalClusters ≤ 65524)
    (hfat : env.geom.totalClusters + 2 ≤ 256 * env.geom.sectorsPerFat) (d : Disk) :
    (∀ c, LeastFree env.geom d c → ∃ d', allocCluster env (clean d) = .ret (c, clean d') ∧
      Marked env.geom d c d' ∧
      (Mirrored env.geom d → ∀ i c', i < env.geom.fatCount → c' < 256 * env.geom.sectorsPerFat →
        c' ≠ c → fatCopy env.geom d' i c' = fatCopy env.geom d i c')) ∧
    ((∃ io, allocCluster env (clean d) = .ret (0, io)) ↔ NoneFree env.geom d) ∧
    (NoneFree env.geom d → allocCluster env (fenced (fun _ _ => false) d) =
      .ret (0, fenced (fun _ _ => false) d)) := by
  rcases allocCluster_scan hclusters hfat (fun _ _ => true) d with ⟨c, hc, halloc⟩ | ⟨hnone, halloc⟩
  · replace halloc := halloc.trans (allocated_clean (d := d) c)
    have hmarked : Marked env.geom d c (setFat env.geom d c 0xFFFF) :=
      marked_setFat (lt_of_lt_of_le hc.isCluster.2 hfat)
    refine ⟨fun c' hc' => ?_, iff_of_false ?_ hc.not_noneFree, fun h => absurd h hc.not_noneFree⟩
    · obtain rfl := hc.unique hc'
      exact ⟨_, halloc, hmarked, fun hmir _ _ => hmarked.fatCopy_eq hmir⟩
    · rintro ⟨io, hio⟩
      have hpos := hc.isCluster.1
      cases halloc.symm.trans hio
      omega
  · refine ⟨fun c hc => absurd hnone hc.not_noneFree, iff_of_true ⟨_, halloc⟩ hnone, fun _ => ?_⟩
    rcases allocCluster_scan hclusters hfat (fun _ _ => false) d with ⟨c, hc, -⟩ | ⟨-, hquiet⟩
    · exact absurd hnone hc.not_noneFree
    · exact hquiet

/-! ## Copies that do not agree -/

/-- Only the second copy has an entry in use: the link of cluster 3 to cluster 7. -/
def staleCopy : Disk := fun lba k => if lba = 2 ∧ k = 6 then 7 else 0

theorem leastFree_staleCopy : LeastFree twoFats staleCopy 2 :=
  ⟨⟨by decide, by decide⟩, by decide, fun c' h2 hlt => by omega⟩

theorem allocCluster_staleCopy : allocCluster ⟨twoFats, 0, fun _ => none⟩ (clean staleCopy) =
    .ret (2, clean (setFat twoFats staleCopy 2 0xFFFF)) := by
  rcases @allocCluster_scan ⟨twoFats, 0, fun _ => none⟩ (by decide) (by decide)
    (fun _ _ => true) staleCopy with ⟨c, hc, halloc⟩ | ⟨hnone, -⟩
  · obtain rfl := hc.unique leastFree_staleCopy
    exact halloc.trans (allocated_clean 2)
  · exact absurd hnone leastFree_staleCopy.not_noneFree

/-- Cluster 2 is allocated, and with it the link in the second copy is gone. -/
theorem allocCluster_other_copy :
    twoFats.totalClusters ≤ 65524 ∧ twoFats.totalClusters + 2 ≤ 256 * twoFats.sectorsPerFat ∧
      LeastFree twoFats staleCopy 2 ∧
      ∃ d', allocCluster ⟨twoFats, 0, fun _ => none⟩ (clean staleCopy) = .ret (2, clean d') ∧
        ¬ ∀ i c', i < twoFats.fatCount → c' < 256 * twoFats.sectorsPerFat → c' ≠ 2 →
          fatCopy twoFats d' i c' = fatCopy twoFats staleCopy i c' := by
  refine ⟨by decide, by decide, leastFree_staleCopy, _, allocCluster_staleCopy, ?_⟩
  intro h
  have hlink : fatCopy twoFats (setFat twoFats staleCopy 2 0xFFFF) 1 3 = 7 :=
    h 1 3 (by decide) (by decide) (by decide)
  rw [fatCopy_setFat (by decide) (by decide) (by decide) (by decide)] at hlink
  exact absurd hlink (by decide)

/-- The second copy of the stale disk is brought in line with the first one. -/
theorem allocCluster_spec_stale :
    ∃ d', allocCluster ⟨twoFats, 0, fun _ => none⟩ (clean staleCopy) = .ret (2, clean d') ∧
      Marked twoFats staleCopy 2 d' :=
  have hspec := @allocCluster_spec ⟨twoFats, 0, fun _ => none⟩ (by decide) (by decide) staleCopy
  let ⟨d', hd', hmarked, _⟩ := hspec.1 2 leastFree_staleCopy
  ⟨d', hd', hmarked⟩

end Fat16

end BenmoshOS
