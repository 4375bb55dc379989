import BenmoshOS.Fat16.Reclaim

/-!
# FAT16: the walks along a cluster chain

Four loops of the driver follow the links of the FAT.  Each has a test of its own for the
numbers it goes on with.

* `Visits` — the clusters that a loop works on, in their order.
* `load_file_iff` — when `fat16_load_file` returns nothing but file data.
* `walkers_agree_iff` — when all loops take the same clusters for those of a chain.
-/

namespace BenmoshOS

namespace Fat16

open Exec (Yields Halts)
open Fs

/-! ## The clusters that a loop visits -/

section Visits

variable {σ ρ : Type} {body : σ → Fs (σ ⊕ ρ)} {works : σ → Prop} [DecidablePred works]
  {cluster : σ → Nat} {g : Geometry} {kmalloc : Nat → Option (Nat → UInt8)} {d : Disk}
  {s s' : σ} {r : ρ} {cs : List Nat}

/-- The loop works on the clusters `cs`, in this order, and leaves with `r`.  It works on the
cluster of a state in which its condition `works` holds; it changes nothing on the disk. -/
def Visits (body : σ → Fs (σ ⊕ ρ)) (works : σ → Prop) [DecidablePred works] (cluster : σ → Nat)
    (g : Geometry) (kmalloc : Nat → Option (Nat → UInt8)) (d : Disk) (s : σ) (cs : List Nat)
    (r : ρ) : Prop :=
  ∃ ss : List σ, Exec.Passes (fun n => Fs.round body ⟨g, n, kmalloc⟩) (s, clean d)
    (ss.map fun s => (s, clean d)) (r, clean d) ∧ (ss.filter works).map cluster = cs

theorem visits_leave (works : σ → Prop) [DecidablePred works] (cluster : σ → Nat)
    (h : (body s).run g kmalloc (clean d) 0 = .ret (.inr r, clean d)) :
    Visits body works cluster g kmalloc d s (if works s then [cluster s] else []) r := by
  refine ⟨[s], .leave (yields_round ⟨0, h⟩), ?_⟩
  by_cases hw : works s
  · simp [hw]
  · simp [hw]

theorem visits_again (h : (body s).run g kmalloc (clean d) 0 = .ret (.inl s', clean d))
    (hw : works s) (hrest : Visits body works cluster g kmalloc d s' cs r) :
    Visits body works cluster g kmalloc d s (cluster s :: cs) r := by
  obtain ⟨ss, hpass, hcs⟩ := hrest
  refine ⟨s :: ss, .again (yields_round ⟨0, h⟩) hpass, ?_⟩
  rw [List.filter_cons_of_pos (by simpa using hw), List.map_cons, hcs]

theorem Visits.yields (hbody : ∀ s, (body s).Regular)
    (h : Visits body works cluster g kmalloc d s cs r) :
    Yields ((Fs.loop body s).run g kmalloc (clean d)) (r, clean d) := by
  obtain ⟨ss, hpass, -⟩ := h
  exact hpass.yields (mono_round hbody g kmalloc)

theorem Visits.unique {cs' : List Nat} {r' : ρ} (hbody : ∀ s, (body s).Regular)
    (h : Visits body works cluster g kmalloc d s cs r)
    (h' : Visits body works cluster g kmalloc d s cs' r') : cs = cs' ∧ r = r' := by
  obtain ⟨ss, hpass, rfl⟩ := h
  obtain ⟨ss', hpass', rfl⟩ := h'
  obtain ⟨hss, hr⟩ := hpass.unique (mono_round hbody g kmalloc) hpass'
  have hinj : Function.Injective fun s : σ => (s, clean d) := fun _ _ h => (Prod.mk.inj h).1
  rw [hinj.list_map hss]
  exact ⟨rfl, (Prod.mk.inj hr).1⟩

end Visits

/-! ## The loop of `fat16_load_file` -/

section Load

variable {g : Geometry} {kmalloc : Nat → Option (Nat → UInt8)} {d : Disk} {st : LoadState}

/-- Byte `k` of the sectors from `lba` on. -/
def byteAt (d : Disk) (lba k : Nat) : UInt8 := d (lba + k / 512) (k % 512)

theorem byteAt_of_lt {lba k : Nat} (h : k < 512) : byteAt d lba k = d lba k := by
  rw [byteAt, Nat.div_eq_of_lt h, Nat.mod_eq_of_lt h, Nat.add_zero]

theorem byteAt_succ (d : Disk) (lba k : Nat) : byteAt d (lba + 1) k = byteAt d lba (k + 512) := by
  rw [byteAt, byteAt, Nat.add_mod_right, Nat.add_div_right k (by decide : 0 < 512)]
  congr 1
  omega

/-- `fat16_load_file` works on the current cluster. -/
def Loading (st : LoadState) : Prop := Live st.currCluster ∧ 0 < st.bytesLeft

instance : DecidablePred Loading := fun _ => inferInstanceAs (Decidable (_ ∧ _))

/-- The clusters that the loop of `fat16_load_file` works on. -/
abbrev LoadVisits (g : Geometry) (kmalloc : Nat → Option (Nat → UInt8)) (d : Disk) (st : LoadState)
    (cs : List Nat) (r : Option (Nat → UInt8)) : Prop :=
  Visits loadCluster Loading LoadState.currCluster g kmalloc d st cs r

/-- The state behind `n` sectors that are read without a failure. -/
def loadedSectors (d : Disk) : Nat → Nat → LoadState → LoadState
  | 0, _, st => st
  | n + 1, lba, st =>
      if 0 < st.bytesLeft then
        let chunk := if st.bytesLeft < 512 then st.bytesLeft else 512
        loadedSectors d n (lba + 1)
          { st with
            bytesLeft := st.bytesLeft - chunk
            writeOffset := st.writeOffset + chunk
            ramBuffer := patch st.ramBuffer st.writeOffset (slice (d lba) 0 chunk) }
      else st

theorem loadSectors_clean {env : Env} (n lba : Nat) (st : LoadState) :
    loadSectors n lba st env (clean d) = .ret (some (loadedSectors d n lba st), clean d) := by
  induction n generalizing lba st with
  | zero => rfl
  | succ n ih =>
      unfold loadSectors loadedSectors
      by_cases hleft : 0 < st.bytesLeft
      · rw [if_pos hleft, if_pos hleft]
        simp only [Fs.bind_apply, ataReadSector_clean, Exec.ret_bind]
        exact ih _ _
      · rw [if_neg hleft, if_neg hleft]
        rfl

/-- What `n` sectors from `lba` on do to the state. -/
structure Advanced (d : Disk) (n lba : Nat) (st st' : LoadState) : Prop where
  currCluster : st'.currCluster = st.currCluster
  bytesLeft : st'.bytesLeft = st.bytesLeft - 512 * n
  writeOffset : st'.writeOffset = st.writeOffset + min st.bytesLeft (512 * n)
  ramBuffer : ∀ k, st'.ramBuffer k =
    if st.writeOffset ≤ k ∧ k < st.writeOffset + min st.bytesLeft (512 * n) then
      byteAt d lba (k - st.writeOffset) else st.ramBuffer k

/-- What is asked for: the bytes of this sector, and the rest only behind a whole sector. -/
theorem sector_and_rest (left n : Nat) :
    left - min left 512 - 512 * n = left - 512 * (n + 1) ∧
      min left (512 * (n + 1)) = min left 512 + min (left - min left 512) (512 * n) ∧
      (0 < min (left - min left 512) (512 * n) → min left 512 = 512) := by
  rcases Nat.le_total left 512 with hle | hle
  · rw [Nat.min_eq_left hle]
    refine ⟨?_, ?_, ?_⟩ <;> omega
  · rw [Nat.min_eq_right hle]
    refine ⟨?_, ?_, ?_⟩ <;> omega

theorem loadedSectors_advanced (n lba : Nat) (st : LoadState) :
    Advanced d n lba st (loadedSectors d n lba st) := by
  induction n generalizing lba st with
  | zero =>
      refine ⟨rfl, by simp [loadedSectors], by simp [loadedSectors], fun k => ?_⟩
      rw [if_neg (by omega)]
      rfl
  | succ n ih =>
      unfold loadedSectors
      by_cases hleft : 0 < st.bytesLeft
      · rw [if_pos hleft]
        obtain ⟨hcluster, hbytes, hoffset, hbuf⟩ := ih (lba + 1)
          { st with
            bytesLeft := st.bytesLeft - if st.bytesLeft < 512 then st.bytesLeft else 512
            writeOffset := st.writeOffset + if st.bytesLeft < 512 then st.bytesLeft else 512
            ramBuffer := patch st.ramBuffer st.writeOffset
              (slice (d lba) 0 (if st.bytesLeft < 512 then st.bytesLeft else 512)) }
        have hchunk : (if st.bytesLeft < 512 then st.bytesLeft else 512) = min st.bytesLeft 512 := by
          split
          · omega
          · omega
        simp only [hchunk] at hcluster hbytes hoffset hbuf ⊢
        have hlen : (slice (d lba) 0 (min st.bytesLeft 512)).length = min st.bytesLeft 512 := by
          simp [slice]
        obtain ⟨hleft', hsum, hwhole⟩ := sector_and_rest st.bytesLeft n
        have hsector : min st.bytesLeft 512 ≤ 512 := Nat.min_le_right _ _
        refine ⟨hcluster, hbytes.trans hleft', hoffset.trans ?_, fun k => ?_⟩
        · rw [hsum, Nat.add_assoc]
        rw [hbuf k, hsum]
        generalize min (st.bytesLeft - min st.bytesLeft 512) (512 * n) = rest at hwhole
        generalize min st.bytesLeft 512 = now at *
        by_cases hlater : st.writeOffset + now ≤ k ∧ k < st.writeOffset + now + rest
        · rw [if_pos hlater, if_pos (by omega), byteAt_succ]
          congr 1
          omega
        · rw [if_neg hlater]
          by_cases hnow : st.writeOffset ≤ k ∧ k < st.writeOffset + now
          · obtain ⟨j, rfl⟩ : ∃ j, k = st.writeOffset + j := ⟨k - st.writeOffset, by omega⟩
            rw [if_pos (by omega), patch_add (by omega), getD_slice (by omega), Nat.zero_add,
              Nat.add_sub_cancel_left, byteAt_of_lt (by omega)]
          · rw [if_neg (by omega), patch_of_not_mem (by omega)]
      · rw [if_neg hleft]
        refine ⟨rfl, by omega, by omega, fun k => ?_⟩
        rw [if_neg (by omega)]

theorem loadCluster_clean (st : LoadState) (n : Nat) :
    (loadCluster st).run g kmalloc (clean d) n = .ret
      (if Loading st then .inl
        { loadedSectors d g.sectorsPerCluster (g.clusterLba st.currCluster) st with
          currCluster := fat g d st.currCluster }
      else .inr (some st.ramBuffer), clean d) := by
  unfold Fs.run loadCluster
  simp only [Fs.bind_apply, Fs.geometry_apply, Exec.ret_bind]
  by_cases hgo : 2 ≤ st.currCluster ∧ st.currCluster < 0xFFF8 ∧ 0 < st.bytesLeft
  · have hload : Loading st := ⟨⟨hgo.1, hgo.2.1⟩, hgo.2.2⟩
    rw [if_pos hgo, if_pos hload]
    simp only [Fs.bind_apply, loadSectors_clean, Exec.ret_bind, readFatEntry_clean,
      (loadedSectors_advanced (d := d) g.sectorsPerCluster (g.clusterLba st.currCluster)
        st).currCluster]
    rfl
  · have hload : ¬ Loading st := fun h => hgo ⟨h.1.1, h.1.2, h.2⟩
    rw [if_neg hgo, if_neg hload]
    rfl

/-- Byte `k` of the chain that starts at `c`. -/
def chainByte (g : Geometry) (d : Disk) (c k : Nat) : UInt8 :=
  byteAt d (g.clusterLba ((fat g d)^[k / g.clusterBytes] c)) (k % g.clusterBytes)

theorem chainByte_of_lt {c k : Nat} (h : k < g.clusterBytes) :
    chainByte g d c k = byteAt d (g.clusterLba c) k := by
  rw [chainByte, Nat.div_eq_of_lt h, Nat.mod_eq_of_lt h, Function.iterate_zero_apply]

theorem chainByte_succ (c k : Nat) :
    chainByte g d (fat g d c) k = chainByte g d c (k + g.clusterBytes) := by
  have hpos := g.clusterBytes_pos
  rw [chainByte, chainByte, Nat.add_mod_right, Nat.add_div_right k hpos,
    Function.iterate_succ_apply]

/-- The loop has read the first `m` clusters of the chain into the buffer, as far as they are
asked for, and does not go on. -/
structure LoadedThrough (g : Geometry) (d : Disk) (st : LoadState) (m : Nat) (b : Nat → UInt8) :
    Prop where
  gone : ∀ i < m, Live ((fat g d)^[i] st.currCluster) ∧ i * g.clusterBytes < st.bytesLeft
  ended : ¬ (Live ((fat g d)^[m] st.currCluster) ∧ m * g.clusterBytes < st.bytesLeft)
  buffer : ∀ k, b k =
    if st.writeOffset ≤ k ∧ k < st.writeOffset + min st.bytesLeft (m * g.clusterBytes) then
      chainByte g d st.currCluster (k - st.writeOffset) else st.ramBuffer k

/-- One more cluster in front. -/
theorem LoadedThrough.cons {m : Nat} {b : Nat → UInt8} {st₁ : LoadState} (hst : Loading st)
    (hadv : Advanced d g.sectorsPerCluster (g.clusterLba st.currCluster) st st₁)
    (h : LoadedThrough g d { st₁ with currCluster := fat g d st.currCluster } m b) :
    LoadedThrough g d st (m + 1) b := by
  obtain ⟨hgone, hended, hbuffer⟩ := h
  have hcb : g.clusterBytes = 512 * g.sectorsPerCluster := Nat.mul_comm _ _
  have hleft : st₁.bytesLeft = st.bytesLeft - g.clusterBytes := by rw [hadv.bytesLeft, hcb]
  simp only [hleft] at hgone hended hbuffer
  refine ⟨?_, ?_, fun k => ?_⟩
  · rintro (_ | i) hi
    · exact ⟨hst.1, by rw [Nat.zero_mul]; exact hst.2⟩
    · obtain ⟨hlive, hlt⟩ := hgone i (by omega)
      rw [Function.iterate_succ_apply, Nat.succ_mul]
      exact ⟨hlive, by omega⟩
  · rw [Function.iterate_succ_apply, Nat.succ_mul]
    exact fun hgo => hended ⟨hgo.1, by omega⟩
  · rw [hbuffer k, hadv.writeOffset, hadv.ramBuffer k, ← hcb, Nat.succ_mul]
    by_cases hlater : st.writeOffset + min st.bytesLeft g.clusterBytes ≤ k ∧
        k < st.writeOffset + min st.bytesLeft (m * g.clusterBytes + g.clusterBytes)
    · rw [if_pos (by omega), if_pos (by omega), chainByte_succ]
      congr 1
      omega
    · rw [if_neg (by omega)]
      by_cases hnow : st.writeOffset ≤ k ∧ k < st.writeOffset + min st.bytesLeft g.clusterBytes
      · rw [if_pos hnow, if_pos (by omega), chainByte_of_lt (by omega)]
      · rw [if_neg hnow, if_neg (by omega)]

/-- **The loop of `fat16_load_file`** reads the clusters of the chain until that ends or nothing is
left to be read. -/
theorem loadLoop_visits (kmalloc : Nat → Option (Nat → UInt8)) (st : LoadState) : ∃ m b,
    LoadVisits g kmalloc d st (List.iterate (fat g d) st.currCluster m) (some b) ∧
      LoadedThrough g d st m b := by
  induction hn : st.bytesLeft using Nat.strong_induction_on generalizing st with
  | _ n ih =>
      have hrun : (loadCluster st).run g kmalloc (clean d) 0 = _ := loadCluster_clean st 0
      by_cases hst : Loading st
      · have hadv := loadedSectors_advanced (d := d) g.sectorsPerCluster
          (g.clusterLba st.currCluster) st
        rw [if_pos hst] at hrun
        have hless : (loadedSectors d g.sectorsPerCluster (g.clusterLba st.currCluster)
            st).bytesLeft < n := by
          have hspc := g.sectorsPerCluster_pos
          have hpos := hst.2
          rw [hadv.bytesLeft, ← hn]
          omega
        obtain ⟨m, b, hvisits, hthrough⟩ := ih _ hless
          { loadedSectors d g.sectorsPerCluster (g.clusterLba st.currCluster) st with
            currCluster := fat g d st.currCluster } rfl
        exact ⟨m + 1, b, visits_again hrun hst hvisits, hthrough.cons hst hadv⟩
      · rw [if_neg hst] at hrun
        have hvisits := visits_leave Loading LoadState.currCluster hrun
        rw [if_neg hst] at hvisits
        refine ⟨0, st.ramBuffer, hvisits, fun i hi => absurd hi (Nat.not_lt_zero i), ?_, fun k => ?_⟩
        · rw [Nat.zero_mul]
          exact hst
        · rw [Nat.zero_mul, if_neg (by omega)]

/-! ### Files -/

/-- The path leads to this entry. -/
def Opens (g : Geometry) (d : Disk) (path : List UInt8) (entry : Record) : Prop :=
  ∃ D name found, LeadsTo g d path D name ∧ Looks g d D name (some found) ∧ found.entry = entry

/-- `fat16_load_file` has worked on the clusters `cs` and has left `b` in the buffer. -/
def Loads (g : Geometry) (kmalloc : Nat → Option (Nat → UInt8)) (d : Disk) (entry : Record)
    (cs : List Nat) (b : Nat → UInt8) : Prop :=
  (entry.fileSize = 0 ∧ cs = []) ∨
    (entry.fileSize ≠ 0 ∧ ∃ ramBuffer, kmalloc entry.fileSize = some ramBuffer ∧
      LoadVisits g kmalloc d ⟨entry.startingCluster, entry.fileSize, 0, ramBuffer⟩ cs (some b))

/-- What is returned has been read from data clusters of the chain of the entry, in its order. -/
def FileData (g : Geometry) (kmalloc : Nat → Option (Nat → UInt8)) (d : Disk) (entry : Record)
    (b : Nat → UInt8) : Prop :=
  ∃ cs, Loads g kmalloc d entry cs b ∧
    cs = List.iterate (fat g d) entry.startingCluster cs.length ∧
    (∀ c ∈ cs, g.IsCluster c) ∧
    ∀ k < entry.fileSize, ∃ c, cs[k / g.clusterBytes]? = some c ∧
      b k = byteAt d (g.clusterLba c) (k % g.clusterBytes)

/-- The chain of the entry has the data clusters that its size asks for. -/
def ChainCovers (g : Geometry) (d : Disk) (entry : Record) : Prop :=
  ∀ i, i * g.clusterBytes < entry.fileSize →
    g.IsCluster ((fat g d)^[i] entry.startingCluster) ∧
      (fat g d)^[i] entry.startingCluster < 0xFFF8

/-- What `fat16_load_file` returns comes from its loop, or the file is empty. -/
theorem yields_loadFound {found : Found} {b : Nat → UInt8} {n : Nat} {io : Io}
    (h : Yields ((loadFound (some found)).run g kmalloc (clean d)) (some (b, n), io)) :
    n = found.entry.fileSize ∧ ∃ m, Loads g kmalloc d found.entry
        (List.iterate (fat g d) found.entry.startingCluster m) b ∧
      (found.entry.fileSize ≠ 0 → ∃ ramBuffer,
        LoadedThrough g d ⟨found.entry.startingCluster, found.entry.fileSize, 0, ramBuffer⟩ m b) := by
  obtain ⟨entry, sector, idx⟩ := found
  show n = entry.fileSize ∧ ∃ m, Loads g kmalloc d entry
    (List.iterate (fat g d) entry.startingCluster m) b ∧ (entry.fileSize ≠ 0 → ∃ ramBuffer,
      LoadedThrough g d ⟨entry.startingCluster, entry.fileSize, 0, ramBuffer⟩ m b)
  obtain ⟨fuel, h⟩ := h
  simp only [loadFound, Fs.run] at h
  split at h
  · exact absurd h (by simp)
  · split at h
    · rename_i hempty
      simp only [Fs.bind_apply, Fs.kmalloc_apply, Exec.ret_bind] at h
      cases hbuf : kmalloc 1 with
      | none => simp [hbuf] at h
      | some buffer =>
          simp only [hbuf, Fs.pure_apply, Exec.ret.injEq, Prod.mk.injEq, Option.some.injEq] at h
          exact ⟨by rw [hempty, h.1.2], 0, Or.inl ⟨hempty, rfl⟩, fun hne => absurd hempty hne⟩
    · rename_i hne
      simp only [Fs.bind_apply, Fs.kmalloc_apply, Exec.ret_bind] at h
      cases hbuf : kmalloc entry.fileSize with
      | none => simp [hbuf] at h
      | some ramBuffer =>
          simp only [hbuf, Fs.bind_apply] at h
          obtain ⟨⟨r, io₁⟩, hloop, h⟩ := Exec.bind_eq_ret.1 h
          cases r with
          | none => simp at h
          | some buffer =>
              simp only [Fs.pure_apply, Exec.ret.injEq, Prod.mk.injEq, Option.some.injEq] at h
              obtain ⟨⟨rfl, rfl⟩, -⟩ := h
              obtain ⟨m, b, hvisits, hthrough⟩ := loadLoop_visits (g := g) (d := d) kmalloc
                ⟨entry.startingCluster, entry.fileSize, 0, ramBuffer⟩
              have hsame := (hvisits.yields fun st => (total_loadCluster st).regular).unique
                ((regular_loadLoop _).mono g kmalloc (clean d)) ⟨fuel, hloop⟩
              obtain rfl := Option.some.inj (Prod.mk.inj hsame).1
              exact ⟨rfl, m, Or.inr ⟨hne, ramBuffer, hbuf, hvisits⟩, fun _ => ⟨ramBuffer, hthrough⟩⟩

theorem yields_loadFile {path : List UInt8} {b : Nat → UInt8} {n : Nat} {io : Io}
    (h : Yields ((loadFile path).run g kmalloc (clean d)) (some (b, n), io)) :
    ∃ found : Found, Opens g d path found.entry ∧
      Yields ((loadFound (some found)).run g kmalloc (clean d)) (some (b, n), io) := by
  rw [loadFile_eq] at h
  rcases yields_onEntry (fun _ _ => regular_loadFound) h with ⟨_, _, hp⟩ |
    ⟨D, name, found, hlead, hlooks, hrun⟩
  · exact absurd (Prod.mk.inj hp).1 (by simp)
  · cases found with
    | none =>
        obtain ⟨_, hrun⟩ := hrun
        exact absurd (Prod.mk.inj (Exec.ret.inj hrun)).1 (by simp)
    | some found =>
        exact ⟨found, ⟨D, name, found, (hlead D name).2 ⟨rfl, rfl⟩, hlooks, rfl⟩, hrun⟩

section Covered

variable {entry : Record} {b : Nat → UInt8} {m : Nat}

theorem FileData.covers (h : FileData g kmalloc d entry b) : ChainCovers g d entry := by
  obtain ⟨cs, hloads, hcs, hclusters, hbytes⟩ := h
  intro i hi
  have hcb := g.clusterBytes_pos
  obtain ⟨c, hc, -⟩ := hbytes _ hi
  rw [Nat.mul_div_cancel _ hcb] at hc
  rcases hloads with ⟨hzero, -⟩ | ⟨hne, ram, -, hvisits⟩
  · omega
  · obtain ⟨m, b', hvisits', hthrough⟩ := loadLoop_visits (g := g) (d := d) kmalloc
      ⟨entry.startingCluster, entry.fileSize, 0, ram⟩
    obtain ⟨rfl, -⟩ := hvisits.unique (fun st => (total_loadCluster st).regular) hvisits'
    obtain ⟨him, hget⟩ := List.getElem?_eq_some_iff.1 hc
    rw [List.getElem_iterate] at hget
    rw [List.length_iterate] at him
    have hlive : Live ((fat g d)^[i] entry.startingCluster) := (hthrough.gone i him).1
    have hget : (fat g d)^[i] entry.startingCluster = c := hget
    rw [hget] at hlive ⊢
    exact ⟨hclusters c (List.mem_of_getElem? hc), hlive.2⟩

theorem ChainCovers.fileData
    (hloads : Loads g kmalloc d entry (List.iterate (fat g d) entry.startingCluster m) b)
    (hthrough : entry.fileSize ≠ 0 → ∃ ramBuffer,
      LoadedThrough g d ⟨entry.startingCluster, entry.fileSize, 0, ramBuffer⟩ m b)
    (h : ChainCovers g d entry) : FileData g kmalloc d entry b := by
  have hcb := g.clusterBytes_pos
  refine ⟨_, hloads, by rw [List.length_iterate], fun c hc => ?_, fun k hk => ?_⟩
  · obtain ⟨i, him, rfl⟩ := List.mem_iterate.1 hc
    by_cases hzero : entry.fileSize = 0
    · rcases hloads with ⟨-, hnil⟩ | ⟨hne, -⟩
      · rw [List.iterate_eq_nil.1 hnil] at him
        exact absurd him (Nat.not_lt_zero i)
      · exact absurd hzero hne
    · obtain ⟨_, hthrough⟩ := hthrough hzero
      exact (h i (hthrough.gone i him).2).1
  · obtain ⟨_, hthrough⟩ := hthrough (by omega)
    have hle : k / g.clusterBytes * g.clusterBytes ≤ k := Nat.div_mul_le_self k _
    have hm : k / g.clusterBytes < m := by
      by_contra hge
      have hmle : m * g.clusterBytes ≤ k / g.clusterBytes * g.clusterBytes :=
        Nat.mul_le_mul_right _ (by omega)
      obtain ⟨hcluster, hlt⟩ := h m (by omega)
      exact hthrough.ended ⟨⟨hcluster.1, hlt⟩, show _ < entry.fileSize by omega⟩
    have hin : k < 0 + min entry.fileSize (m * g.clusterBytes) := by
      have hkm := (Nat.div_lt_iff_lt_mul hcb).1 hm
      omega
    refine ⟨_, List.getElem?_iterate _ _ _ _ hm, ?_⟩
    rw [hthrough.buffer k, if_pos ⟨Nat.zero_le k, hin⟩]
    rfl

end Covered

/-- **Loading a file.**  What `fat16_load_file` returns is file data exactly when the chain of the
entry has all the data clusters that the size of the entry asks for. -/
theorem load_file_iff {path : List UInt8} {b : Nat → UInt8} {n : Nat} {io : Io}
    (h : Yields ((loadFile path).run g kmalloc (clean d)) (some (b, n), io)) :
    ∃ entry, Opens g d path entry ∧ n = entry.fileSize ∧
      (FileData g kmalloc d entry b ↔ ChainCovers g d entry) := by
  obtain ⟨found, hopens, hrun⟩ := yields_loadFile h
  obtain ⟨hn, m, hloads, hthrough⟩ := yields_loadFound hrun
  exact ⟨found.entry, hopens, hn, FileData.covers, ChainCovers.fileData hloads hthrough⟩

/-- A run that is seen to return `n` bytes, the first of which is `v`. -/
theorem yields_of_loaded {x : Fs (Option ((Nat → UInt8) × Nat))} {v : UInt8} {n : Nat} (fuel : Nat)
    (h : (match x.run g kmalloc (clean d) fuel with
      | .ret (some q, _) => some (q.1 0, q.2)
      | _ => none) = some (v, n)) :
    ∃ b io, b 0 = v ∧ Yields (x.run g kmalloc (clean d)) (some (b, n), io) := by
  cases hx : x.run g kmalloc (clean d) fuel with
  | panic p => simp [hx] at h
  | spin => simp [hx] at h
  | ret q =>
      obtain ⟨_ | ⟨b, n'⟩, io⟩ := q
      · simp [hx] at h
      · obtain ⟨hv, rfl⟩ : b 0 = v ∧ n' = n := by simpa [hx] using h
        exact ⟨b, io, hv, fuel, hx⟩

/-- A heap whose memory is filled with `0xAA`. -/
def dirtyHeap : Nat → Option (Nat → UInt8) := fun _ => some fun _ => 0xAA

/-- A file of one byte that has been written. -/
theorem load_file_iff_written :
    ∃ b io, Yields ((loadFile [0x2F, 0x61]).run wideGeometry dirtyHeap
        (clean (after (writeFile [0x2F, 0x61] [0x41] false) blankDisk))) (some (b, 1), io) ∧
      ∃ entry, Opens wideGeometry (after (writeFile [0x2F, 0x61] [0x41] false) blankDisk)
          [0x2F, 0x61] entry ∧ 1 = entry.fileSize ∧
        (FileData wideGeometry dirtyHeap
            (after (writeFile [0x2F, 0x61] [0x41] false) blankDisk) entry b ↔
          ChainCovers wideGeometry (after (writeFile [0x2F, 0x61] [0x41] false) blankDisk) entry) := by
  obtain ⟨b, io, -, hrun⟩ : ∃ b io, b 0 = 0x41 ∧ Yields ((loadFile [0x2F, 0x61]).run wideGeometry
      dirtyHeap (clean (after (writeFile [0x2F, 0x61] [0x41] false) blankDisk)))
      (some (b, 1), io) := yields_of_loaded 3 (by decide +kernel)
  exact ⟨b, io, hrun, load_file_iff hrun⟩

/-- The volume has a file `A` of one byte without a cluster. -/
def unwrittenDisk : Disk :=
  blankDisk.set 257 (setRecord (fun _ => 0) 0 (sfnRecord (padTo 11 [0x41]) attrArchive 0 1))

/-- What a lookup of `a` finds in its root directory. -/
def unwrittenFile : Found :=
  (visitList (findFileCallback [0x61]) 257 (slots unwrittenDisk 257 0 16) 0 FindCtx.zero).2.out

/-- `fat16_load_file` returns a byte of the heap. -/
theorem load_returns_heap_memory : ∃ b io, b 0 = 0xAA ∧
    Yields ((loadFile [0x2F, 0x61]).run wideGeometry dirtyHeap (clean unwrittenDisk))
      (some (b, 1), io) ∧
    Opens wideGeometry unwrittenDisk [0x2F, 0x61] unwrittenFile.entry ∧
    ¬ FileData wideGeometry dirtyHeap unwrittenDisk unwrittenFile.entry b := by
  obtain ⟨b, io, hb, hrun⟩ : ∃ b io, b 0 = 0xAA ∧ Yields ((loadFile [0x2F, 0x61]).run wideGeometry
      dirtyHeap (clean unwrittenDisk)) (some (b, 1), io) := yields_of_loaded 3 (by decide +kernel)
  have hfound : (visitList (findFileCallback [0x61]) 257 (slots unwrittenDisk 257 0 16) 0
      FindCtx.zero).2.found = true := by decide +kernel
  have hsize : unwrittenFile.entry.fileSize = 1 := by decide +kernel
  have hstart : unwrittenFile.entry.startingCluster = 0 := by decide +kernel
  refine ⟨b, io, hb, hrun, ⟨0, [0x61], unwrittenFile, leadsTo_a _ _, ?_, rfl⟩, ?_⟩
  · exact ⟨_, ⟨0, rfl⟩, if_pos hfound⟩
  · rintro ⟨cs, -, hcs, hclusters, hbytes⟩
    -- the only byte would have to come from cluster 0
    obtain ⟨c, hc, -⟩ := hbytes 0 (by omega)
    rw [Nat.zero_div] at hc
    have hmem := List.mem_of_getElem? hc
    rw [hcs, hstart] at hc
    cases hlen : cs.length with
    | zero => simp [hlen] at hc
    | succ m =>
        obtain rfl : 0 = c := by simpa [hlen] using hc
        exact absurd (hclusters 0 hmem).1 (by decide)

end Load

/-! ## Chains that all walks agree on -/

section Agreement

variable {g : Geometry} {kmalloc : Nat → Option (Nat → UInt8)} {d : Disk} {start : Nat}
  {cs : List Nat}

/-- `cs` is a chain of data clusters up to the end mark that `fat16_alloc_cluster` writes. -/
structure FullChain (g : Geometry) (d : Disk) (start : Nat) (cs : List Nat) : Prop where
  ne_nil : cs ≠ []
  chain : Chain (fat g d) (· = 0xFFFF) start cs
  isCluster : ∀ c ∈ cs, g.IsCluster c

/-- The append walk of `fat16_write_file` works on the current cluster. -/
def Walking (p : Nat × Nat) : Prop := Live p.1

instance : DecidablePred Walking := fun _ => inferInstanceAs (Decidable (Live _))

/-- The loop of `iterate_directory` works on the current cluster. -/
def Iterating {κ : Type} (p : Nat × κ) : Prop := Live p.1

instance {κ : Type} : DecidablePred (Iterating (κ := κ)) :=
  fun _ => inferInstanceAs (Decidable (Live _))

/-- All walks take the clusters `cs` for those of the chain. -/
structure WalkersAgree (g : Geometry) (kmalloc : Nat → Option (Nat → UInt8)) (d : Disk)
    (start : Nat) (cs : List Nat) : Prop where
  load : ∀ size ramBuffer, (cs.length - 1) * g.clusterBytes < size →
    ∃ r, LoadVisits g kmalloc d ⟨start, size, 0, ramBuffer⟩ cs (some r)
  append : ∃ r, Visits walkRound Walking Prod.fst g kmalloc d (start, 0) cs r
  iterate : ∀ {κ : Type} (site : Site) (callback : Visitor κ) (context : κ),
    (∀ sec i r context, (callback sec i r context).1 = 0) →
      ∃ r, Visits (visitCluster site callback) Iterating Prod.fst g kmalloc d (start, context) cs r
  free : ∃ d', Yields ((freeChain start).run g kmalloc (clean d)) ((), clean d') ∧
    ∀ i < g.fatCount, ∀ c < 256 * g.sectorsPerFat,
      fatCopy g d' i c = if c ∈ cs then 0 else fatCopy g d i c

/-- `fat16_free_chain` goes on at every cluster of the chain, and the FAT copies hold the same in
the sectors that it writes. -/
def FreeFits (g : Geometry) (d : Disk) (cs : List Nat) : Prop :=
  ∀ i < g.fatCount, (∀ c ∈ cs, c < 0xFFF0) ∧
    ∀ c < 256 * g.sectorsPerFat, c ∉ cs → (∃ c' ∈ cs, c * 2 / 512 = c' * 2 / 512) →
      fatCopy g d i c = fat g d c

/-! ### The walks that read -/

theorem FullChain.live (hle : g.totalClusters ≤ 65524) (h : FullChain g d start cs) :
    ∀ c ∈ cs, Live c := by
  intro c hc
  obtain ⟨h2, hlt⟩ := h.isCluster c hc
  exact ⟨h2, by omega⟩

theorem not_live_end : ¬ Live 0xFFFF := fun h => absurd h.2 (by decide)

theorem FullChain.load_visits (hle : g.totalClusters ≤ 65524) (h : FullChain g d start cs)
    {size : Nat} {ramBuffer : Nat → UInt8} (hsize : (cs.length - 1) * g.clusterBytes < size) :
    ∃ r, LoadVisits g kmalloc d ⟨start, size, 0, ramBuffer⟩ cs (some r) := by
  obtain ⟨m, b, hvisits, hthrough⟩ := loadLoop_visits (g := g) (d := d) kmalloc
    ⟨start, size, 0, ramBuffer⟩
  obtain ⟨hcs, hend⟩ := h.chain.eq_iterate
  rcases Nat.lt_trichotomy m cs.length with hlt | heq | hgt
  · exfalso
    have hmem : (fat g d)^[m] start ∈ cs := by
      rw [hcs]
      exact List.mem_iterate.2 ⟨m, hlt, rfl⟩
    have hle' : m * g.clusterBytes ≤ (cs.length - 1) * g.clusterBytes :=
      Nat.mul_le_mul_right _ (by omega)
    exact hthrough.ended ⟨h.live hle _ hmem, hle'.trans_lt hsize⟩
  · refine ⟨b, ?_⟩
    rw [hcs, ← heq]
    exact hvisits
  · exfalso
    have hlive : Live ((fat g d)^[cs.length] start) := (hthrough.gone _ hgt).1
    rw [hend] at hlive
    exact not_live_end hlive

theorem append_visits (hlive : ∀ c ∈ cs, Live c) (hne : cs ≠ [])
    (h : Chain (fat g d) (· = 0xFFFF) start cs) (prev : Nat) :
    ∃ r, Visits walkRound Walking Prod.fst g kmalloc d (start, prev) cs r := by
  induction cs generalizing start prev with
  | nil => exact absurd rfl hne
  | cons c cs ih =>
      obtain ⟨rfl, -, hrest⟩ := h
      have hstart : Live start := hlive start (List.mem_cons_self ..)
      have hrun : (walkRound (start, prev)).run g kmalloc (clean d) 0 = _ :=
        walkRound_clean (start, prev) 0
      rw [if_pos hstart] at hrun
      cases cs with
      | nil =>
          have heof : fat g d start = 0xFFFF := hrest
          rw [if_pos (show fat g d start ≥ 0xFFF8 by omega)] at hrun
          have hvisits := visits_leave Walking Prod.fst hrun
          rw [if_pos (show Walking (start, prev) from hstart)] at hvisits
          exact ⟨_, hvisits⟩
      | cons c cs =>
          have hc : Live (fat g d start) := by
            rw [hrest.1]
            exact hlive c (List.mem_cons_of_mem _ (List.mem_cons_self ..))
          rw [if_neg (Nat.not_le_of_lt hc.2)] at hrun
          obtain ⟨r, hr⟩ := ih (fun a ha => hlive a (List.mem_cons_of_mem _ ha)) (by simp) hrest start
          exact ⟨r, visits_again hrun hstart hr⟩

/-- A visitor that never stops sees all records. -/
theorem visitList_never {κ : Type} {callback : Visitor κ}
    (hgo : ∀ sec i r context, (callback sec i r context).1 = 0) (base : Nat) :
    ∀ (rs : List Record) (p : Nat) (context : κ),
      (visitList callback base rs p context).1 = none := by
  intro rs
  induction rs with
  | nil => exact fun _ _ => rfl
  | cons r rs ih =>
      intro p context
      rw [visitList_go (Prod.ext (hgo _ _ r context) rfl)]
      exact ih _ _

theorem iterate_visits {κ : Type} {callback : Visitor κ}
    (hgo : ∀ sec i r context, (callback sec i r context).1 = 0) (site : Site)
    (hlive : ∀ c ∈ cs, Live c) (h : Chain (fat g d) (· = 0xFFFF) start cs) (context : κ) :
    ∃ r, Visits (visitCluster site callback) Iterating Prod.fst g kmalloc d (start, context) cs r := by
  induction cs generalizing start context with
  | nil =>
      obtain rfl : start = 0xFFFF := h
      have hrun : (visitCluster site callback (0xFFFF, context)).run g kmalloc (clean d) 0 = _ :=
        visitCluster_clean site callback (0xFFFF, context) 0
      rw [walkStep, if_neg not_live_end] at hrun
      have hvisits := visits_leave Iterating Prod.fst hrun
      rw [if_neg (show ¬ Iterating (0xFFFF, context) from not_live_end)] at hvisits
      exact ⟨_, hvisits⟩
  | cons c cs ih =>
      obtain ⟨rfl, -, hrest⟩ := h
      have hstart : Live start := hlive start (List.mem_cons_self ..)
      have hrun : (visitCluster site callback (start, context)).run g kmalloc (clean d) 0 = _ :=
        visitCluster_clean site callback (start, context) 0
      have hnone := visitList_never hgo (g.clusterLba start)
        (slots d (g.clusterLba start) 0 (16 * g.sectorsPerCluster)) 0 context
      rw [walkStep, if_pos hstart, visitAt] at hrun
      generalize visitList callback (g.clusterLba start)
        (slots d (g.clusterLba start) 0 (16 * g.sectorsPerCluster)) 0 context = q at hnone hrun
      obtain ⟨status, context'⟩ := q
      obtain rfl : status = none := hnone
      obtain ⟨r, hr⟩ := ih (fun a ha => hlive a (List.mem_cons_of_mem _ ha)) hrest _
      exact ⟨r, visits_again hrun hstart hr⟩

/-! ### The walk that frees -/

theorem fatCopy_clearAll {i c : Nat} (hi : i < g.fatCount)
    (hcs : ∀ c ∈ cs, c < 256 * g.sectorsPerFat) (hc : c < 256 * g.sectorsPerFat) :
    fatCopy g (clearAll g d cs) i c = if c ∈ cs then 0
      else if ∃ c' ∈ cs, c * 2 / 512 = c' * 2 / 512 then fat g d c else fatCopy g d i c := by
  induction cs generalizing d with
  | nil => simp [clearAll]
  | cons a cs ih =>
      obtain ⟨ha, hcs⟩ := List.forall_mem_cons.1 hcs
      have hcopies : 0 < g.fatCount := Nat.zero_lt_of_lt hi
      rw [show clearAll g d (a :: cs) = clearAll g (setFat g d a 0) cs from rfl, ih hcs,
        fatCopy_setFat hi ha hc (by decide)]
      by_cases hmem : c ∈ cs
      · rw [if_pos hmem, if_pos (List.mem_cons_of_mem _ hmem)]
      · rw [if_neg hmem]
        by_cases hca : c = a
        · have hzero : fat g (setFat g d a 0) c = 0 := by
            rw [fat_eq_fatCopy, fatCopy_setFat hcopies ha hc (by decide), if_pos hca]
          rw [hzero, if_pos hca, ite_self, if_pos (hca ▸ List.mem_cons_self ..)]
        · have hnot : c ∉ a :: cs := fun h => (List.mem_cons.1 h).elim hca hmem
          rw [fat_setFat_of_ne ha hc (by decide) hca, if_neg hca, if_neg hnot]
          by_cases hsec : c * 2 / 512 = a * 2 / 512
          · rw [if_pos hsec, ite_self, if_pos ⟨a, List.mem_cons_self .., hsec⟩]
          · simp only [List.mem_cons, exists_eq_or_imp, hsec, false_or, if_false]

/-- The loop of `fat16_free_chain` clears the clusters in front of the first reserved number. -/
theorem freeFrom_takeWhile {env : Env} : ∀ {cs : List Nat} (n v : Nat) (d : Disk),
    (∀ c ∈ cs, env.geom.IsCluster c ∧ c < 256 * env.geom.sectorsPerFat) → cs.length ≤ n →
    Chain (fat env.geom d) (· = 0xFFFF) v cs →
      freeFrom n v env (clean d) =
        .ret ((), clean (clearAll env.geom d (cs.takeWhile (· < 0xFFF0)))) := by
  intro cs
  induction cs with
  | nil =>
      intro n v d _ _ hv
      obtain rfl : v = 0xFFFF := hv
      cases n with
      | zero => rfl
      | succ n =>
          unfold freeFrom
          rw [if_neg (by decide)]
          rfl
  | cons c cs ih =>
      intro n v d hcs hn hv
      have hnodup := List.nodup_cons.1 hv.nodup
      obtain ⟨rfl, -, hrest⟩ := hv
      obtain ⟨⟨hc, hvfat⟩, hcs⟩ := List.forall_mem_cons.1 hcs
      obtain ⟨n, rfl⟩ : ∃ k, n = k + 1 := ⟨n - 1, by simp only [List.length_cons] at hn; omega⟩
      unfold freeFrom
      by_cases hlt : v < 0xFFF0
      · rw [if_pos ⟨hc.1, hlt⟩, List.takeWhile_cons_of_pos (by simpa using hlt)]
        simp only [Fs.bind_apply, readFatEntry_clean, writeFatEntry_clean, Exec.ret_bind]
        refine ih n _ _ hcs (by simpa using hn) (hrest.congr fun a ha => ?_)
        refine fat_setFat_of_ne hvfat (hcs a ha).2 (by decide) ?_
        rintro rfl
        exact hnodup.1 ha
      · rw [if_neg fun h => hlt h.2, List.takeWhile_cons_of_neg (by simpa using hlt)]
        rfl

theorem FullChain.freeChain_run (hle : g.totalClusters ≤ 65524)
    (hfat : g.totalClusters + 2 ≤ 256 * g.sectorsPerFat) (h : FullChain g d start cs) (n : Nat) :
    (freeChain start).run g kmalloc (clean d) n =
      .ret ((), clean (clearAll g d (cs.takeWhile (· < 0xFFF0)))) := by
  have hlen := length_le_totalClusters h.chain.nodup h.isCluster
  have hstart : Live start := by
    cases hcs : cs with
    | nil => exact absurd hcs h.ne_nil
    | cons c cs' =>
        have hlive := h.live hle
        obtain ⟨-, hchain, -⟩ := h
        rw [hcs] at hlive hchain
        rw [hchain.1]
        exact hlive c (List.mem_cons_self ..)
  unfold Fs.run freeChain
  simp only [Fs.bind_apply, Fs.geometry_apply, Exec.ret_bind]
  rw [if_neg fun hor => hor.elim (fun h2 => absurd hstart.1 (by omega))
    fun h8 => absurd hstart.2 (by omega)]
  exact freeFrom_takeWhile _ _ _ (fun c hc => ⟨h.isCluster c hc, (h.isCluster c hc).2.trans_le hfat⟩)
    hlen h.chain

/-- **Walks along a chain.**  Loading, appending and iterating visit exactly the clusters of the
chain; freeing clears exactly them if none has a reserved number and the FAT copies agree. -/
theorem walkers_agree_iff (kmalloc : Nat → Option (Nat → UInt8)) (hle : g.totalClusters ≤ 65524)
    (hfat : g.totalClusters + 2 ≤ 256 * g.sectorsPerFat) (h : FullChain g d start cs) :
    WalkersAgree g kmalloc d start cs ↔ FreeFits g d cs := by
  have hrange : ∀ c ∈ cs, c < 256 * g.sectorsPerFat :=
    fun c hc => (h.isCluster c hc).2.trans_le hfat
  have hfreed : ∀ c ∈ cs.takeWhile (· < 0xFFF0), c < 256 * g.sectorsPerFat :=
    fun c hc => hrange c ((List.takeWhile_prefix _).subset hc)
  have hrun : ∀ n, (freeChain start).run g kmalloc (clean d) n = _ := h.freeChain_run hle hfat
  constructor
  · rintro ⟨-, -, -, d', ⟨n, hd'⟩, hcopies⟩ i hi
    have heq := (Prod.mk.inj (Exec.ret.inj ((hrun n).symm.trans hd'))).2
    obtain rfl : clearAll g d (cs.takeWhile (· < 0xFFF0)) = d' := congrArg Io.disk heq
    have hsmall : ∀ c ∈ cs, c < 0xFFF0 := by
      intro c hc
      have hzero := hcopies 0 (Nat.zero_lt_of_lt hi) c (hrange c hc)
      rw [fatCopy_clearAll (Nat.zero_lt_of_lt hi) hfreed (hrange c hc), if_pos hc, ← fat_eq_fatCopy,
        ite_self] at hzero
      by_contra hge
      have hnot : c ∉ cs.takeWhile (· < 0xFFF0) :=
        fun hmem => hge (by simpa using List.mem_takeWhile_imp hmem)
      rw [if_neg hnot] at hzero
      rcases h.chain.next_mem c hc with hend | hnext
      · rw [hzero] at hend
        exact absurd hend (by decide)
      · rw [hzero] at hnext
        exact absurd (h.isCluster 0 hnext).1 (by decide)
    refine ⟨hsmall, fun c hc hnot hsec => ?_⟩
    have hall : cs.takeWhile (· < 0xFFF0) = cs := List.takeWhile_eq_self_iff.2 (by simpa using hsmall)
    have hcopy := hcopies i hi c hc
    rw [hall, fatCopy_clearAll hi hrange hc, if_neg hnot, if_neg hnot, if_pos hsec] at hcopy
    exact hcopy.symm
  · intro hfits
    have hlive := h.live hle
    refine ⟨fun size ram hsize => h.load_visits hle hsize, append_visits hlive h.ne_nil h.chain 0,
      fun site callback context hgo => iterate_visits hgo site hlive h.chain context,
      _, ⟨0, hrun 0⟩, fun i hi c hc => ?_⟩
    obtain ⟨hsmall, hagree⟩ := hfits i hi
    have hall : cs.takeWhile (· < 0xFFF0) = cs := List.takeWhile_eq_self_iff.2 (by simpa using hsmall)
    rw [hall, fatCopy_clearAll hi hrange hc]
    by_cases hmem : c ∈ cs
    · rw [if_pos hmem, if_pos hmem]
    · rw [if_neg hmem, if_neg hmem]
      by_cases hsec : ∃ c' ∈ cs, c * 2 / 512 = c' * 2 / 512
      · rw [if_pos hsec, hagree c hc hmem hsec]
      · rw [if_neg hsec]

/-- A volume of two clusters, the second of them linked to the first. -/
def linkedDisk : Disk := setFat wideGeometry (setFat wideGeometry blankDisk 2 0xFFFF) 3 2

/-- The chain of the two clusters; one copy of the FAT is enough for all walkers to agree. -/
theorem walkers_agree_iff_linked :
    WalkersAgree wideGeometry (fun _ => none) linkedDisk 3 [3, 2] := by
  have hnext : fat wideGeometry linkedDisk 3 = 2 := by decide +kernel
  have hlast : fat wideGeometry linkedDisk 2 = 0xFFFF := by decide +kernel
  have hchain : FullChain wideGeometry linkedDisk 3 [3, 2] :=
    ⟨by simp, ⟨rfl, by decide, hnext, by decide, hlast⟩,
      by simp [Geometry.IsCluster, wideGeometry, Geometry.small]⟩
  refine (walkers_agree_iff (fun _ => none) (by decide) (by decide) hchain).2 fun i hi =>
    ⟨by decide, fun c _ _ _ => ?_⟩
  have hcount : wideGeometry.fatCount = 1 := rfl
  obtain rfl : i = 0 := by omega
  rfl

/-- A volume of 65524 clusters, the largest with 16-bit numbers. -/
def largeGeometry : Geometry := .small 1 256 1 65524 (by decide)

/-- Its last cluster, taken and linked to nothing, is not given back. -/
theorem last_cluster_not_freed :
    FullChain largeGeometry (setFat largeGeometry blankDisk 65525 0xFFFF) 65525 [65525] ∧
      ¬ WalkersAgree largeGeometry (fun _ => none) (setFat largeGeometry blankDisk 65525 0xFFFF)
        65525 [65525] := by
  have hlast : fat largeGeometry (setFat largeGeometry blankDisk 65525 0xFFFF) 65525 = 0xFFFF := by
    decide +kernel
  have hchain : FullChain largeGeometry (setFat largeGeometry blankDisk 65525 0xFFFF) 65525
      [65525] :=
    ⟨by simp, ⟨rfl, by decide, hlast⟩, by simp [Geometry.IsCluster, largeGeometry, Geometry.small]⟩
  refine ⟨hchain, fun hagree => ?_⟩
  obtain ⟨d', ⟨n, hd'⟩, hcopies⟩ := hagree.free
  have hrun : (freeChain 65525).run largeGeometry (fun _ => none)
      (clean (setFat largeGeometry blankDisk 65525 0xFFFF)) n = _ :=
    hchain.freeChain_run (by decide) (by decide) n
  have heq := (Prod.mk.inj (Exec.ret.inj (hrun.symm.trans hd'))).2
  have hsame : setFat largeGeometry blankDisk 65525 0xFFFF = d' := congrArg Io.disk heq
  have hzero := hcopies 0 (by decide) 65525 (by decide)
  rw [← hsame, ← fat_eq_fatCopy, hlast, if_pos (List.mem_singleton_self _)] at hzero
  exact absurd hzero (by decide)

end Agreement

end Fat16

end BenmoshOS
