import BenmoshOS.Fat16.Walks

/-!
# FAT16: the loops of the driver

Besides the walks through directories the driver has four loops without a bound of their own.
The loop of `fat16_load_file` and the write loop of `fat16_write_file` always come to an end.
The append walk of `fat16_write_file` ends when the chain of the file does, and the search of
`fat16_insert_entry` for a short name goes on as long as it finds the names it tries.
-/

namespace BenmoshOS

namespace Fat16

open Exec (Yields Halts)
open Fs

/-! ## Chains that are followed to their end -/

section Chains

variable {g : Geometry} {d : Disk} {kmalloc : Nat → Option (Nat → UInt8)}

theorem total_walkRound (p : Nat × Nat) : (walkRound p).Total := by
  refine total_ite ?_ (total_pure _)
  exact (total_readFatEntry _ _).bind fun _ => total_ite (total_pure _) (total_pure _)

/-- The append walk after `k` rounds. -/
def appendState (g : Geometry) (d : Disk) (start : Nat) : Nat → Nat × Nat
  | 0 => (start, 0)
  | k + 1 => ((fat g d)^[k + 1] start, (fat g d)^[k] start)

theorem appendState_fst (start k : Nat) :
    (appendState g d start k).1 = (fat g d)^[k] start := by
  cases k with
  | zero => rfl
  | succ k => rfl

theorem walkRound_clean (p : Nat × Nat) (n : Nat) :
    (walkRound p).run g kmalloc (clean d) n = .ret
      (if Live p.1 then
        if fat g d p.1 ≥ 0xFFF8 then .inr (p.1, p.1) else .inl (fat g d p.1, p.1)
      else .inr p, clean d) := by
  unfold Fs.run walkRound
  by_cases hlive : 2 ≤ p.1 ∧ p.1 < 0xFFF8
  · have hlive' : Live p.1 := hlive
    rw [if_pos hlive, if_pos hlive']
    simp only [Fs.bind_apply, readFatEntry_clean, Exec.ret_bind]
    by_cases heof : fat g d p.1 ≥ 0xFFF8
    · rw [if_pos heof, if_pos heof]
      rfl
    · rw [if_neg heof, if_neg heof]
      rfl
  · have hlive' : ¬ Live p.1 := hlive
    rw [if_neg hlive, if_neg hlive']
    rfl

/-- **The append walk** ends exactly when the chain does. -/
theorem halts_appendWalk (kmalloc : Nat → Option (Nat → UInt8)) (start : Nat) :
    Halts ((Fs.loop walkRound (start, 0)).run g kmalloc (clean d)) ↔ ChainEnds g d start := by
  have hyields : ∀ k, Yields (fun n => Fs.round walkRound ⟨g, n, kmalloc⟩
      (appendState g d start k, clean d)) _ :=
    fun k => yields_round ⟨0, walkRound_clean (appendState g d start k) 0⟩
  have horbit := Exec.halts_loop_orbit (mono_round (fun p => (total_walkRound p).regular) g kmalloc)
    (p := fun k => Live ((fat g d)^[k] start) ∧ ¬ fat g d ((fat g d)^[k] start) ≥ 0xFFF8)
    (fun k => (appendState g d start k, clean d)) ?_ ?_
  · refine horbit.trans ?_
    constructor
    · rintro ⟨k, hk⟩
      by_cases hlive : Live ((fat g d)^[k] start)
      · refine ⟨k + 1, fun hnext => hk ⟨hlive, ?_⟩⟩
        rw [Function.iterate_succ_apply'] at hnext
        exact Nat.not_le_of_lt hnext.2
      · exact ⟨k, hlive⟩
    · rintro ⟨k, hk⟩
      exact ⟨k, fun hgo => hk hgo.1⟩
  · rintro k ⟨hlive, heof⟩
    have hy := hyields k
    rw [appendState_fst, if_pos hlive, if_neg heof, ← Function.iterate_succ_apply' (fat g d)] at hy
    exact hy
  · intro k hstop
    have hy := hyields k
    rw [appendState_fst] at hy
    by_cases hlive : Live ((fat g d)^[k] start)
    · have heof : fat g d ((fat g d)^[k] start) ≥ 0xFFF8 := by
        by_contra heof
        exact hstop ⟨hlive, heof⟩
      rw [if_pos hlive, if_pos heof] at hy
      exact ⟨_, hy⟩
    · rw [if_neg hlive] at hy
      exact ⟨_, hy⟩

/-! ## Loops that always end -/

/-- A cluster that is read without a failure makes the rest of the file shorter. -/
theorem loadSectors_bytesLeft {env : Env} {n lba : Nat} {st st' : LoadState} {io io' : Io}
    (h : loadSectors n lba st env io = .ret (some st', io')) :
    st'.bytesLeft ≤ st.bytesLeft ∧ (0 < n → 0 < st.bytesLeft → st'.bytesLeft < st.bytesLeft) := by
  induction n generalizing lba st io with
  | zero =>
      obtain ⟨hst, -⟩ := Prod.mk.inj (Exec.ret.inj h)
      rw [← Option.some.inj hst]
      exact ⟨Nat.le_refl _, fun hn => absurd hn (Nat.lt_irrefl _)⟩
  | succ n ih =>
      rw [loadSectors] at h
      by_cases hleft : 0 < st.bytesLeft
      · rw [if_pos hleft] at h
        obtain ⟨⟨buffer, io₁⟩, -, h⟩ := Exec.bind_eq_ret.1 h
        cases buffer with
        | none => exact absurd h (by simp)
        | some buffer =>
            have hrest := (ih h).1
            simp only at hrest
            have hless : st'.bytesLeft < st.bytesLeft := by
              split at hrest
              · omega
              · omega
            exact ⟨hless.le, fun _ _ => hless⟩
      · rw [if_neg hleft] at h
        obtain ⟨hst, -⟩ := Prod.mk.inj (Exec.ret.inj h)
        rw [← Option.some.inj hst]
        exact ⟨Nat.le_refl _, fun _ h => absurd h hleft⟩

theorem total_loadCluster (st : LoadState) : (loadCluster st).Total := by
  refine total_geometry.bind fun g => total_ite ?_ (total_pure _)
  refine (total_loadSectors _ _ _).bind fun r => ?_
  cases r with
  | none => exact total_pure _
  | some st => exact (total_readFatEntry _ _).bind fun _ => total_pure _

/-- **The loop of `fat16_load_file`** ends: every cluster makes the rest shorter. -/
theorem halts_loadLoop (st : LoadState) (d : Disk) :
    Halts ((Fs.loop loadCluster st).run g kmalloc (clean d)) := by
  refine Exec.halts_loop_measure (mono_round (fun st => (total_loadCluster st).regular) g kmalloc)
    (fun p => ∃ d, p.2 = clean d) (fun p => p.1.bytesLeft) ?_ (st, clean d) ⟨d, rfl⟩
  rintro ⟨st, _⟩ ⟨d, rfl⟩
  obtain ⟨y, d', hy⟩ := (total_loadCluster st).runs g kmalloc d
  refine ⟨_, yields_round ⟨0, hy 0⟩, ?_⟩
  have hrun := hy 0
  unfold Fs.run loadCluster at hrun
  simp only [Fs.bind_apply, Fs.geometry_apply, Exec.ret_bind] at hrun
  split at hrun
  · rename_i hgo
    obtain ⟨⟨r, io₁⟩, hload, hrun⟩ := Exec.bind_eq_ret.1 hrun
    cases r with
    | none =>
        obtain ⟨rfl, -⟩ := Prod.mk.inj (Exec.ret.inj hrun)
        trivial
    | some st₁ =>
        have hless := (loadSectors_bytesLeft hload).2 g.sectorsPerCluster_pos hgo.2.2
        obtain ⟨⟨next, io₂⟩, -, hrun⟩ := Exec.bind_eq_ret.1 hrun
        obtain ⟨rfl, -⟩ := Prod.mk.inj (Exec.ret.inj hrun)
        exact ⟨⟨d', rfl⟩, hless⟩
  · obtain ⟨rfl, -⟩ := Prod.mk.inj (Exec.ret.inj hrun)
    trivial

/-- Sectors that are written without a failure make the rest of the data shorter. -/
theorem writeSectors_bytesWritten {env : Env} {data : List UInt8} {n lba secOffset b b' : Nat}
    {io io' : Io} (hoffset : secOffset < 512)
    (h : writeSectors data n lba secOffset b env io = .ret (.ok b', io')) :
    b ≤ b' ∧ (0 < n → b < data.length → b < b') := by
  induction n generalizing lba secOffset b io with
  | zero =>
      obtain ⟨hb, -⟩ := Prod.mk.inj (Exec.ret.inj h)
      rw [← Except.ok.inj hb]
      exact ⟨Nat.le_refl _, fun hn => absurd hn (Nat.lt_irrefl _)⟩
  | succ n ih =>
      rw [writeSectors] at h
      by_cases hmore : b < data.length
      · rw [if_pos hmore] at h
        obtain ⟨⟨buffer, io₁⟩, -, h⟩ := Exec.bind_eq_ret.1 h
        cases buffer with
        | none => exact absurd h (by simp)
        | some buffer =>
            obtain ⟨⟨ok, io₂⟩, -, h⟩ := Exec.bind_eq_ret.1 h
            cases ok with
            | false => exact absurd h (by simp)
            | true =>
                have hrest := (ih (by omega) h).1
                have hless : b < b' := by omega
                exact ⟨hless.le, fun _ _ => hless⟩
      · rw [if_neg hmore] at h
        obtain ⟨hb, -⟩ := Prod.mk.inj (Exec.ret.inj h)
        rw [← Except.ok.inj hb]
        exact ⟨Nat.le_refl _, fun _ h => absurd h hmore⟩

theorem total_writeRound (data : List UInt8) (append : Bool) (fileSize : Nat) (st : WriteState) :
    (writeRound data append fileSize st).Total := by
  refine total_geometry.bind fun g => total_ite ?_ (total_pure _)
  refine (total_nextCluster _ _).bind fun r => ?_
  cases r with
  | none => exact total_pure _
  | some st =>
      refine (total_writeSectors _ _ _ _ _).bind fun r => ?_
      cases r with
      | error res => exact total_pure _
      | ok b => exact total_pure _

/-- The new cluster of a round has no data yet. -/
theorem nextCluster_bytesWritten {env : Env} {inClusterOffset : Nat} {st st' : WriteState}
    {io io' : Io} (h : nextCluster inClusterOffset st env io = .ret (some st', io')) :
    st'.bytesWritten = st.bytesWritten := by
  rw [nextCluster] at h
  split at h
  · obtain ⟨⟨newC, io₁⟩, -, h⟩ := Exec.bind_eq_ret.1 h
    by_cases hnew : newC = 0
    · simp only [if_pos hnew] at h
      exact absurd h (by simp)
    · simp only [if_neg hnew] at h
      obtain ⟨⟨_, io₂⟩, -, h⟩ := Exec.bind_eq_ret.1 h
      obtain ⟨hst, -⟩ := Prod.mk.inj (Exec.ret.inj h)
      rw [← Option.some.inj hst]
  · obtain ⟨hst, -⟩ := Prod.mk.inj (Exec.ret.inj h)
    rw [← Option.some.inj hst]

/-- **The write loop of `fat16_write_file`** ends: every cluster takes some of the data. -/
theorem halts_writeLoop (data : List UInt8) (append : Bool) (fileSize : Nat) (st : WriteState)
    (d : Disk) :
    Halts ((Fs.loop (writeRound data append fileSize) st).run g kmalloc (clean d)) := by
  refine Exec.halts_loop_measure
    (mono_round (fun st => (total_writeRound data append fileSize st).regular) g kmalloc)
    (fun p => ∃ d, p.2 = clean d) (fun p => data.length - p.1.bytesWritten) ?_ (st, clean d)
    ⟨d, rfl⟩
  rintro ⟨st, _⟩ ⟨d, rfl⟩
  obtain ⟨y, d', hy⟩ := (total_writeRound data append fileSize st).runs g kmalloc d
  refine ⟨_, yields_round ⟨0, hy 0⟩, ?_⟩
  have hrun := hy 0
  unfold Fs.run writeRound at hrun
  simp only [Fs.bind_apply, Fs.geometry_apply, Exec.ret_bind] at hrun
  split at hrun
  · rename_i hgo
    obtain ⟨⟨r, io₁⟩, hnext, hrun⟩ := Exec.bind_eq_ret.1 hrun
    cases r with
    | none =>
        obtain ⟨rfl, -⟩ := Prod.mk.inj (Exec.ret.inj hrun)
        trivial
    | some st₁ =>
        have hbytes := nextCluster_bytesWritten hnext
        obtain ⟨⟨r, io₂⟩, hwrite, hrun⟩ := Exec.bind_eq_ret.1 hrun
        cases r with
        | error res =>
            obtain ⟨rfl, -⟩ := Prod.mk.inj (Exec.ret.inj hrun)
            trivial
        | ok b =>
            obtain ⟨rfl, -⟩ := Prod.mk.inj (Exec.ret.inj hrun)
            -- the offset lies in the cluster, so there is a sector to write
            have hsector : (if append = true ∧ 0 < fileSize ∧ st.bytesWritten = 0 then
                fileSize % g.clusterBytes else 0) / 512 < g.sectorsPerCluster := by
              have hpos := g.sectorsPerCluster_pos
              split
              · refine Nat.div_lt_of_lt_mul ?_
                have := Nat.mod_lt fileSize g.clusterBytes_pos
                unfold Geometry.clusterBytes at this ⊢
                omega
              · omega
            have hless := (writeSectors_bytesWritten (Nat.mod_lt _ (by omega)) hwrite).2
              (by omega) (by omega)
            refine ⟨⟨d', rfl⟩, ?_⟩
            show data.length - b < data.length - st.bytesWritten
            omega
  · obtain ⟨rfl, -⟩ := Prod.mk.inj (Exec.ret.inj hrun)
    trivial

end Chains

/-! ## Insertion -/

section Insertion

variable {g : Geometry} {d : Disk} {kmalloc : Nat → Option (Nat → UInt8)} {D : Nat} {name : Name}

/-- The name that attempt `a` of the search for a short name looks up. -/
def candidate (name : Name) (a : Nat) : Name := tempTarget (generateShortName name a)

/-- From attempt 100 on the numeric tail, whose first character is cut to eight bits,
repeats itself. -/
theorem generateShortName_add {a : Nat} (h : 100 ≤ a) (name : Name) :
    generateShortName name (a + 25600) = generateShortName name a := by
  have htail : numericTail (a + 25600) = numericTail a := by
    have hhundreds : UInt8.ofNat ((a + 25600) / 100 + 0x30) = UInt8.ofNat (a / 100 + 0x30) := by
      apply UInt8.toNat_inj.1
      rw [UInt8.toNat_ofNat', UInt8.toNat_ofNat']
      omega
    have htens : (a + 25600) / 10 % 10 = a / 10 % 10 := by omega
    have hones : (a + 25600) % 10 = a % 10 := by omega
    unfold numericTail
    rw [if_neg (by omega), if_neg (by omega), if_neg (by omega), if_neg (by omega), hhundreds,
      htens, hones]
  unfold generateShortName
  rw [htail]

/-- `a` is the first attempt whose name is not found; all lookups up to it end. -/
structure FirstFree (g : Geometry) (d : Disk) (D : Nat) (name : Name) (a : Nat) : Prop where
  pos : 1 ≤ a
  free : Looks g d D (candidate name a) none
  taken : ∀ b, 1 ≤ b → b < a → ∃ found, Looks g d D (candidate name b) (some found)

/-- There are no more than 25699 names to try. -/
theorem FirstFree.lt {a : Nat} (h : FirstFree g d D name a) : a < 25700 := by
  by_contra hge
  obtain ⟨b, rfl⟩ : ∃ b, a = b + 25600 := ⟨a - 25600, by omega⟩
  obtain ⟨found, hfound⟩ := h.taken b (by omega) (by omega)
  have hfree := h.free
  rw [candidate, generateShortName_add (by omega)] at hfree
  exact absurd (hfree.unique hfound) (by simp)

/-- The search for a short name ends. -/
def ShortNameEnds (g : Geometry) (d : Disk) (D : Nat) (name : Name) : Prop :=
  ∃ a, FirstFree g d D name a

theorem regular_tryShortName (D : Nat) (name : Name) (a : Nat) : (tryShortName D name a).Regular := by
  refine (regular_findInDir _ _ _).bind fun found => ?_
  cases found with
  | none => exact (total_pure _).regular
  | some _ => exact (total_pure _).regular

theorem yields_tryShortName {a : Nat} {p : (Nat ⊕ List UInt8) × Io} :
    Yields ((tryShortName D name a).run g kmalloc (clean d)) p ↔
      ∃ found, Looks g d D (candidate name a) found ∧
        p = (if found.isSome then .inl (a + 1) else .inr (generateShortName name a), clean d) := by
  unfold tryShortName
  rw [yields_bind (regular_findInDir _ _ _) ?_]
  · constructor
    · rintro ⟨⟨found, io⟩, hq, _, hp⟩
      obtain ⟨hlooks, hio⟩ := (yields_findInDir _).1 hq
      obtain rfl : io = clean d := hio
      refine ⟨found, hlooks, ?_⟩
      cases found with
      | none => exact (Exec.ret.inj hp).symm
      | some found => exact (Exec.ret.inj hp).symm
    · rintro ⟨found, hlooks, rfl⟩
      refine ⟨(found, clean d), (yields_findInDir _).2 ⟨hlooks, rfl⟩, 0, ?_⟩
      cases found with
      | none => rfl
      | some found => rfl
  · intro found
    cases found with
    | none => exact (total_pure _).regular
    | some _ => exact (total_pure _).regular

theorem regular_shortNameLoop (D : Nat) (name : Name) (a : Nat) :
    (Fs.loop (tryShortName D name) a).Regular := regular_loop (regular_tryShortName D name) a

/-- A search that returns has found the names of all attempts but the last one. -/
theorem firstFree_of_loop {n : Nat} {q : List UInt8 × Io} : ∀ j a,
    Exec.loop (Fs.round (tryShortName D name) ⟨g, n, kmalloc⟩) j (a, clean d) = .ret q →
    1 ≤ a → (∀ b, 1 ≤ b → b < a → ∃ found, Looks g d D (candidate name b) (some found)) →
    ∃ a', FirstFree g d D name a' ∧ q = (generateShortName name a', clean d) := by
  intro j
  induction j with
  | zero =>
      intro a h
      exact absurd h (by simp [Exec.loop])
  | succ j ih =>
      intro a h hpos htaken
      rcases Fs.round_cases h with ⟨a₁, io₁, hround, hrest⟩ | hround
      · obtain ⟨found, hlooks, hp⟩ := yields_tryShortName.1 ⟨n, hround⟩
        obtain ⟨hy, rfl⟩ := Prod.mk.inj hp
        cases found with
        | none => exact absurd hy (by simp)
        | some found =>
            obtain rfl : a₁ = a + 1 := by simpa using hy
            refine ih (a + 1) hrest (by omega) fun b hb hlt => ?_
            by_cases hba : b = a
            · exact ⟨found, hba ▸ hlooks⟩
            · exact htaken b hb (by omega)
      · obtain ⟨found, hlooks, hp⟩ := yields_tryShortName.1 ⟨n, hround⟩
        obtain ⟨hy, hio⟩ := Prod.mk.inj hp
        cases found with
        | none =>
            refine ⟨a, ⟨hpos, hlooks, htaken⟩, Prod.ext ?_ hio⟩
            simpa using hy
        | some found => exact absurd hy (by simp)

/-- **The search for a short name** yields the first one that is not found. -/
theorem yields_shortNameLoop {q : List UInt8 × Io} :
    Yields ((Fs.loop (tryShortName D name) 1).run g kmalloc (clean d)) q ↔
      ∃ a, FirstFree g d D name a ∧ q = (generateShortName name a, clean d) := by
  constructor
  · rintro ⟨n, h⟩
    exact firstFree_of_loop n 1 h (Nat.le_refl 1) fun b hb hlt => absurd hb (by omega)
  · rintro ⟨a, h, rfl⟩
    -- from every attempt up to the free one the search gets to it
    suffices hfrom : ∀ k b, 1 ≤ b → b + k = a →
        Yields ((Fs.loop (tryShortName D name) b).run g kmalloc (clean d))
          (generateShortName name a, clean d) from
      hfrom (a - 1) 1 (Nat.le_refl 1) (by have := h.pos; omega)
    intro k
    induction k with
    | zero =>
        intro b _ hb
        obtain rfl : b = a := by omega
        have hleave : Yields (fun n => Fs.round (tryShortName D name) ⟨g, n, kmalloc⟩ (b, clean d))
            (.inr (generateShortName name b, clean d)) :=
          yields_round (yields_tryShortName.2 ⟨none, h.free, rfl⟩)
        exact (Exec.yields_loop (mono_round (regular_tryShortName D name) g kmalloc)).2
          (Or.inl hleave)
    | succ k ih =>
        intro b hpos hb
        obtain ⟨found, hfound⟩ := h.taken b hpos (by omega)
        have hagain : Yields (fun n => Fs.round (tryShortName D name) ⟨g, n, kmalloc⟩ (b, clean d))
            (.inl (b + 1, clean d)) :=
          yields_round (yields_tryShortName.2 ⟨some found, hfound, rfl⟩)
        exact (Exec.yields_loop (mono_round (regular_tryShortName D name) g kmalloc)).2
          (Or.inr ⟨_, hagain, ih (b + 1) (by omega) (by omega)⟩)

/-- The disk after the write loop of `fat16_insert_entry`. -/
def streamed : List Record → Nat → Sector → Nat → Disk → Disk
  | [], currentSec, secBuf, _, d => d.set currentSec secBuf
  | record :: records, currentSec, secBuf, slot, d =>
      let secBuf := setRecord secBuf slot record
      if slot + 1 ≥ 16 then
        let d := d.set currentSec secBuf
        streamed records (currentSec + 1) (d (currentSec + 1)) 0 d
      else streamed records currentSec secBuf (slot + 1) d

theorem writeRecords_streamed {env : Env} (records : List Record) (currentSec : Nat)
    (secBuf : Sector) (slot : Nat) (d : Disk) :
    writeRecords records currentSec secBuf slot env (clean d) =
      .ret (eok, clean (streamed records currentSec secBuf slot d)) := by
  induction records generalizing currentSec secBuf slot d with
  | nil => rfl
  | cons record records ih =>
      unfold writeRecords streamed
      by_cases hslot : slot + 1 ≥ 16
      · simp only [if_pos hslot, Fs.bind_apply, ataWriteSector_clean, ataReadSector_clean,
          Exec.ret_bind, if_true]
        exact ih _ _ _ _
      · simp only [if_neg hslot]
        exact ih _ _ _ _

/-- The insertion of a file comes to an end. -/
def InsertEnds (g : Geometry) (d : Disk) (D : Nat) (name : Name) : Prop :=
  ShortNameEnds g d D name ∧ WalkEnds g d (slotSearchCallback (lfnCount name + 1)) D SlotCtx.zero

/-- The disk with the entry of a new file. -/
def WithEntry (g : Geometry) (d : Disk) (D : Nat) (name : Name) (d' : Disk) : Prop :=
  ∃ a r, FirstFree g d D name a ∧
    Iterates g d (slotSearchCallback (lfnCount name + 1)) D SlotCtx.zero r ∧ r.2.done = true ∧
    d' = streamed (newRecords name (generateShortName name a) attrArchive 0 0) r.2.startSector
      (d r.2.startSector) r.2.startSlot d

/-- `fat16_insert_entry` behind its two searches. -/
def insertRecords (name : Name) (attributes : UInt8) (cluster size : Nat) (sfn : List UInt8)
    (ctx : SlotCtx) : Fs Int :=
  if ctx.done then do
    match ← ataReadSector .records ctx.startSector with
    | none => pure (-eio)
    | some secBuf =>
        writeRecords (newRecords name sfn attributes cluster size) ctx.startSector secBuf
          ctx.startSlot
  else pure (-enospc)

theorem insertEntry_eq (D : Nat) (name : Name) (attributes : UInt8) (cluster size : Nat) :
    insertEntry D name attributes cluster size =
      (Fs.loop (tryShortName D name) 1 >>= fun sfn =>
        iterateDirectory .slotSearch D (slotSearchCallback (lfnCount name + 1)) SlotCtx.zero >>=
          fun r => insertRecords name attributes cluster size sfn r.2) := rfl

theorem regular_insertRecords (name : Name) (attributes : UInt8) (cluster size : Nat)
    (sfn : List UInt8) (ctx : SlotCtx) :
    (insertRecords name attributes cluster size sfn ctx).Regular := by
  refine Total.regular (total_ite ((total_read _ _).bind fun secBuf => ?_) (total_pure _))
  cases secBuf with
  | none => exact total_pure _
  | some secBuf => exact total_writeRecords _ _ _ _

theorem regular_insertSlots (D : Nat) (name : Name) (attributes : UInt8) (cluster size : Nat)
    (sfn : List UInt8) :
    Fs.Regular (iterateDirectory .slotSearch D (slotSearchCallback (lfnCount name + 1)) SlotCtx.zero >>=
      fun r => insertRecords name attributes cluster size sfn r.2) :=
  (regular_iterateDirectory _ _ _ _).bind fun r => regular_insertRecords _ _ _ _ _ r.2

theorem regular_insertEntry (D : Nat) (name : Name) (attributes : UInt8) (cluster size : Nat) :
    (insertEntry D name attributes cluster size).Regular := by
  rw [insertEntry_eq]
  exact (regular_shortNameLoop D name 1).bind (regular_insertSlots D name attributes cluster size)

variable {attributes : UInt8} {cluster size : Nat}

theorem insertRecords_clean (sfn : List UInt8) (ctx : SlotCtx) (n : Nat) :
    (insertRecords name attributes cluster size sfn ctx).run g kmalloc (clean d) n =
      .ret (if ctx.done then (eok, clean (streamed (newRecords name sfn attributes cluster size)
          ctx.startSector (d ctx.startSector) ctx.startSlot d))
        else (-enospc, clean d)) := by
  unfold insertRecords
  by_cases hdone : ctx.done = true
  · simp only [hdone, if_true]
    exact writeRecords_streamed _ _ _ _ _
  · simp only [hdone, Bool.false_eq_true, if_false]
    rfl

/-- **Insertion** yields the disk with the new entry, or the disk as it was when there is no
room. -/
theorem yields_insertEntry {p : Int × Io} :
    Yields ((insertEntry D name attributes cluster size).run g kmalloc (clean d)) p ↔
      ∃ a r, FirstFree g d D name a ∧
        Iterates g d (slotSearchCallback (lfnCount name + 1)) D SlotCtx.zero r ∧
        p = if r.2.done then (eok, clean (streamed (newRecords name (generateShortName name a)
            attributes cluster size) r.2.startSector (d r.2.startSector) r.2.startSlot d))
          else (-enospc, clean d) := by
  rw [insertEntry_eq, yields_bind (regular_shortNameLoop D name 1)
    (regular_insertSlots D name attributes cluster size)]
  constructor
  · rintro ⟨q, hq, hp⟩
    obtain ⟨a, hfree, rfl⟩ := yields_shortNameLoop.1 hq
    obtain ⟨⟨r, io⟩, hr, n, hp⟩ := (yields_bind (regular_iterateDirectory _ _ _ _)
      fun r => regular_insertRecords _ _ _ _ _ r.2).1 hp
    obtain ⟨hiter, hio⟩ := (yields_iterateDirectory _).1 hr
    obtain rfl : io = clean d := hio
    exact ⟨a, r, hfree, hiter, Exec.ret.inj (hp.symm.trans (insertRecords_clean _ r.2 n))⟩
  · rintro ⟨a, r, hfree, hiter, rfl⟩
    refine ⟨_, yields_shortNameLoop.2 ⟨a, hfree, rfl⟩, ?_⟩
    exact (yields_bind (regular_iterateDirectory _ _ _ _) fun r => regular_insertRecords _ _ _ _ _ r.2).2
      ⟨(r, clean d), (yields_iterateDirectory _).2 ⟨hiter, rfl⟩, 0, insertRecords_clean _ r.2 0⟩

theorem halts_insertEntry :
    Halts ((insertEntry D name attrArchive 0 0).run g kmalloc (clean d)) ↔
      InsertEnds g d D name := by
  rw [InsertEnds, walkEnds_iff]
  constructor
  · rintro ⟨p, hp⟩
    obtain ⟨a, r, hfree, hiter, -⟩ := yields_insertEntry.1 hp
    exact ⟨⟨a, hfree⟩, r, hiter⟩
  · rintro ⟨⟨a, hfree⟩, r, hiter⟩
    exact ⟨_, yields_insertEntry.2 ⟨a, r, hfree, hiter, rfl⟩⟩

end Insertion

end Fat16

end BenmoshOS
