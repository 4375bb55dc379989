import BenmoshOS.Fat16.Allocation

/-!
# FAT16: how many clusters a write asks for

The write loop of `fat16_write_file` takes the first free cluster at every cluster boundary.
Whatever the FAT holds, it succeeds exactly when there are as many free clusters as it asks for.

* `Suffices` — there are enough free clusters, the link behind the old chain included.
* `rounds_finish_iff`, `writeLoop_finishes_iff` — the loop succeeds exactly then.
* `BeginsWith`, `available` — the clusters of the file, and those that are free, when the loop
  begins.
-/

namespace BenmoshOS

namespace Fat16

open Exec (Yields Halts)
open Fs

variable {g : Geometry} {d d' : Disk} {kmalloc : Nat → Option (Nat → UInt8)}

/-! ## Enough free clusters -/

/-- `n` clusters can be taken from the free ones, the first one first.  It is linked behind `prev`,
and the link takes this cluster too when it is free. -/
def Suffices (free : Finset Nat) (prev n : Nat) : Prop :=
  n = 0 ∨ ∃ c ∈ free, (∀ a ∈ free, c ≤ a) ∧ n ≤ (free \ {c, prev}).card + 1

theorem suffices_iff_of_not_mem {free : Finset Nat} {prev n : Nat} (hprev : prev ∉ free) :
    Suffices free prev n ↔ n ≤ free.card := by
  have hcard : ∀ c ∈ free, (free \ {c, prev}).card + 1 = free.card := by
    intro c hc
    have herase : free \ {c, prev} = free.erase c := by
      ext a
      rw [Finset.mem_sdiff, Finset.mem_insert, Finset.mem_singleton, Finset.mem_erase]
      constructor
      · exact fun h => ⟨fun hac => h.2 (Or.inl hac), h.1⟩
      · rintro ⟨hac, ha⟩
        refine ⟨ha, ?_⟩
        rintro (heq | rfl)
        · exact hac heq
        · exact hprev ha
    rw [herase, Finset.card_erase_add_one hc]
  constructor
  · rintro (rfl | ⟨c, hc, -, hn⟩)
    · exact Nat.zero_le _
    · rwa [hcard c hc] at hn
  · intro hn
    by_cases hempty : n = 0
    · exact Or.inl hempty
    · have hne : free.Nonempty := Finset.card_pos.1 (by omega)
      refine Or.inr ⟨free.min' hne, free.min'_mem hne, fun a ha => free.min'_le a ha, ?_⟩
      rwa [hcard _ (free.min'_mem hne)]

theorem leastFree_iff {c : Nat} :
    LeastFree g d c ↔ c ∈ freeClusters g d ∧ ∀ a ∈ freeClusters g d, c ≤ a := by
  constructor
  · intro h
    refine ⟨mem_freeClusters.2 ⟨h.isCluster, h.free⟩, fun a ha => ?_⟩
    obtain ⟨hcluster, hfree⟩ := mem_freeClusters.1 ha
    by_contra hlt
    exact h.least a hcluster.1 (by omega) hfree
  · rintro ⟨hc, hleast⟩
    obtain ⟨hcluster, hfree⟩ := mem_freeClusters.1 hc
    refine ⟨hcluster, hfree, fun a h2 hlt hzero => ?_⟩
    have hmax := hcluster.2
    have hle := hleast a (mem_freeClusters.2 ⟨⟨h2, by omega⟩, hzero⟩)
    omega

theorem noneFree_iff : NoneFree g d ↔ freeClusters g d = ∅ := by
  rw [Finset.eq_empty_iff_forall_notMem]
  constructor
  · intro h c hc
    obtain ⟨hcluster, hfree⟩ := mem_freeClusters.1 hc
    exact h c hcluster hfree
  · exact fun h c hcluster hfree => h c (mem_freeClusters.2 ⟨hcluster, hfree⟩)

/-- The first free cluster has been linked and filled. -/
theorem freeClusters_linked (hg : g.Valid) {c prev : Nat} (hc : LeastFree g d c)
    (hprev : 2 ≤ prev → prev < 256 * g.sectorsPerFat)
    (hframe : ∀ l, ¬ g.InCluster c l → d' l = linked g d prev c l) :
    freeClusters g d' = freeClusters g d \ {c, prev} := by
  have hc2 := hc.isCluster.1
  ext a
  rw [Finset.mem_sdiff, mem_freeClusters, mem_freeClusters, Finset.mem_insert,
    Finset.mem_singleton, and_assoc]
  refine and_congr_right fun ha => ?_
  rw [fat_of_cluster hg hc2 hframe ha, fat_linked hg hc.isCluster hprev ha]
  by_cases haprev : a = prev
  · rw [if_pos haprev]
    exact iff_of_false (by omega) fun h => h.2 (Or.inr haprev)
  · by_cases hac : a = c
    · rw [if_neg haprev, if_pos hac]
      exact iff_of_false (by decide) fun h => h.2 (Or.inl hac)
    · simp [haprev, hac]

/-- A round in the last cluster of the file takes none. -/
theorem freeClusters_filled (hg : g.Valid) {c : Nat} (hc : 2 ≤ c)
    (hframe : ∀ l, ¬ g.InCluster c l → d' l = d l) : freeClusters g d' = freeClusters g d := by
  ext a
  rw [mem_freeClusters, mem_freeClusters]
  exact and_congr_right fun ha => by rw [fat_of_cluster hg hc hframe ha]

/-! ## The write loop -/

section Loop

variable {st st' : WriteState} {data : List UInt8} {append : Bool} {fileSize : Nat}

/-- The write loop gets through with the data. -/
def Finishes (g : Geometry) (kmalloc : Nat → Option (Nat → UInt8)) (data : List UInt8)
    (append : Bool) (fileSize : Nat) (d : Disk) (st : WriteState) : Prop :=
  ∃ first io, Yields ((Fs.loop (writeRound data append fileSize) st).run g kmalloc (clean d))
    (.ok first, io)

theorem finishes_done (hb : ¬ st.bytesWritten < data.length) :
    Finishes g kmalloc data append fileSize d st :=
  ⟨st.firstCluster, clean d, (yields_writeLoop_last (writeRound_done hb)).2 rfl⟩

theorem finishes_next
    (hrun : ∀ n, (writeRound data append fileSize st).run g kmalloc (clean d) n =
      .ret (.inl st', clean d')) :
    Finishes g kmalloc data append fileSize d st ↔ Finishes g kmalloc data append fileSize d' st' :=
  exists_congr fun _ => exists_congr fun _ => yields_writeLoop_next hrun

theorem not_finishes_full
    (hrun : ∀ n, (writeRound data append fileSize st).run g kmalloc (clean d) n =
      .ret (.inr (.error (-enospc)), clean d)) :
    ¬ Finishes g kmalloc data append fileSize d st := by
  rintro ⟨first, io, h⟩
  exact absurd (Prod.mk.inj ((yields_writeLoop_last hrun).1 h)).1 (by simp)

/-- A round that begins with a new cluster: the loop gets through with the data when the rest does,
with the clusters that are left. -/
theorem boundary_finishes_iff (hg : g.Valid) (hb : st.bytesWritten < data.length)
    (hboundary : roundOffset g append fileSize st = 0 ∨ st.currCluster < 2)
    (hprev : ¬ NoneFree g d → 2 ≤ st.prevCluster → st.prevCluster < 256 * g.sectorsPerFat)
    (hrest : ∀ c d', LeastFree g d c → freeClusters g d' = freeClusters g d \ {c, st.prevCluster} →
      (Finishes g kmalloc data append fileSize d' ((st.extended c).advanced g data append fileSize) ↔
        g.clustersFor (data.length -
            filled g data (roundOffset g append fileSize st) st.bytesWritten) ≤
          (freeClusters g d').card)) :
    Finishes g kmalloc data append fileSize d st ↔
      Suffices (freeClusters g d) st.prevCluster
        (g.clustersFor (roundOffset g append fileSize st + (data.length - st.bytesWritten))) := by
  have hoffset := roundOffset_lt g append fileSize st
  have hstep : g.clustersFor (roundOffset g append fileSize st + (data.length - st.bytesWritten)) =
      g.clustersFor (data.length -
        filled g data (roundOffset g append fileSize st) st.bytesWritten) + 1 := by
    rw [g.clustersFor_step (by omega), filled]
    congr 2
    omega
  rw [hstep]
  rcases writeRound_boundary hg kmalloc hb hboundary d with ⟨c, d', hc, hrun, hframe⟩ | ⟨hnone, hrun⟩
  · have hfree := freeClusters_linked hg hc (hprev hc.not_noneFree) hframe
    obtain ⟨hmem, hleast⟩ := leastFree_iff.1 hc
    rw [finishes_next hrun, hrest c d' hc hfree, hfree]
    constructor
    · exact fun h => Or.inr ⟨c, hmem, hleast, Nat.add_le_add_right h 1⟩
    · rintro (hzero | ⟨c', hmem', hleast', h⟩)
      · exact absurd hzero (Nat.succ_ne_zero _)
      · obtain rfl := le_antisymm (hleast c' hmem') (hleast' c hmem)
        exact Nat.le_of_add_le_add_right h
  · refine iff_of_false (not_finishes_full hrun) ?_
    rintro (hzero | ⟨c, hmem, -, -⟩)
    · exact absurd hzero (Nat.succ_ne_zero _)
    · rw [noneFree_iff.1 hnone] at hmem
      exact absurd hmem (Finset.notMem_empty c)

/-- **Rounds.**  From a cluster boundary on, behind a cluster that is not free, the loop gets
through with the data exactly when there are enough free clusters. -/
theorem rounds_finish_iff (hg : g.Valid) : ∀ (st : WriteState) (d : Disk),
    roundOffset g append fileSize st = 0 →
    (2 ≤ st.prevCluster → st.prevCluster < 256 * g.sectorsPerFat) →
    st.prevCluster ∉ freeClusters g d →
    (Finishes g kmalloc data append fileSize d st ↔
      g.clustersFor (data.length - st.bytesWritten) ≤ (freeClusters g d).card) := by
  intro st
  induction hk : data.length - st.bytesWritten using Nat.strong_induction_on generalizing st with
  | _ k ih =>
      intro d hoffset hprev hnot
      by_cases hb : st.bytesWritten < data.length
      · have hlt := filled_lt (roundOffset_lt g append fileSize st) hb
        rw [boundary_finishes_iff hg hb (Or.inl hoffset) fun _ => hprev, hoffset, Nat.zero_add, hk,
          suffices_iff_of_not_mem hnot]
        intro c d' hc hfree
        have hnot' : c ∉ freeClusters g d' := by
          rw [hfree]
          exact fun hmem => (Finset.mem_sdiff.1 hmem).2 (Finset.mem_insert_self c _)
        have hbytes : ((st.extended c).advanced g data append fileSize).bytesWritten =
            filled g data (roundOffset g append fileSize st) st.bytesWritten := rfl
        exact ih _ (by omega) _ rfl d' (roundOffset_eq_zero (by omega))
          (fun _ => IsCluster.lt_fat hg hc.isCluster) hnot'
      · refine iff_of_true (finishes_done hb) ?_
        rw [← hk, Nat.sub_eq_zero_of_le (by omega), g.clustersFor_zero]
        exact Nat.zero_le _

/-- A loop that begins with a new cluster. -/
theorem finishes_iff_of_boundary (hg : g.Valid) (hb : st.bytesWritten < data.length)
    (hboundary : roundOffset g append fileSize st = 0 ∨ st.currCluster < 2)
    (hprev : ¬ NoneFree g d → 2 ≤ st.prevCluster → st.prevCluster < 256 * g.sectorsPerFat) :
    Finishes g kmalloc data append fileSize d st ↔
      Suffices (freeClusters g d) st.prevCluster
        (g.clustersFor (roundOffset g append fileSize st + (data.length - st.bytesWritten))) := by
  refine boundary_finishes_iff hg hb hboundary hprev fun c d' hc hfree => ?_
  have hlt := filled_lt (roundOffset_lt g append fileSize st) hb
  have hbytes : ((st.extended c).advanced g data append fileSize).bytesWritten =
      filled g data (roundOffset g append fileSize st) st.bytesWritten := rfl
  have hnot : c ∉ freeClusters g d' := by
    rw [hfree]
    exact fun hmem => (Finset.mem_sdiff.1 hmem).2 (Finset.mem_insert_self c _)
  exact rounds_finish_iff hg _ d' (roundOffset_eq_zero (by omega))
    (fun _ => IsCluster.lt_fat hg hc.isCluster) hnot

/-- The clusters that data asks for, when the file ends at `offset` in the cluster `curr`. -/
def asked (g : Geometry) (data : List UInt8) (offset curr : Nat) : Nat :=
  if data.length = 0 then 0
  else if offset = 0 ∨ curr < 2 then g.clustersFor (offset + data.length)
  else g.clustersFor (offset + data.length) - 1

/-- **The write loop.**  It gets through with the data exactly when there are enough free clusters,
if the last cluster can be linked to the first of them. -/
theorem writeLoop_finishes_iff (hg : g.Valid) (hfirst : st.bytesWritten = 0)
    (hlink : 0 < data.length → roundOffset g append fileSize st = 0 ∨ st.currCluster < 2 ∨
      g.clusterBytes < roundOffset g append fileSize st + data.length →
      ¬ NoneFree g d → 2 ≤ st.prevCluster → st.prevCluster < 256 * g.sectorsPerFat) :
    Finishes g kmalloc data append fileSize d st ↔ Suffices (freeClusters g d) st.prevCluster
      (asked g data (roundOffset g append fileSize st) st.currCluster) := by
  by_cases hb : st.bytesWritten < data.length
  · have hlink := hlink (by omega)
    rw [asked, if_neg (by omega)]
    by_cases hboundary : roundOffset g append fileSize st = 0 ∨ st.currCluster < 2
    · rw [if_pos hboundary, finishes_iff_of_boundary hg hb hboundary
        (hlink (hboundary.imp_right Or.inl)), hfirst, Nat.sub_zero]
    · obtain ⟨d', hrun, hframe⟩ := writeRound_inside kmalloc hb hboundary d
      have hfree : freeClusters g d' = freeClusters g d := freeClusters_filled hg (by omega) hframe
      have hbytes : (st.advanced g data append fileSize).bytesWritten =
          filled g data (roundOffset g append fileSize st) st.bytesWritten := rfl
      have hoffset := roundOffset_lt g append fileSize st
      have hlt := filled_lt hoffset hb
      have hzero : roundOffset g append fileSize (st.advanced g data append fileSize) = 0 :=
        roundOffset_eq_zero (by omega)
      rw [if_neg hboundary, finishes_next hrun, g.clustersFor_step (by omega), Nat.add_sub_cancel]
      by_cases hmore : g.clusterBytes < roundOffset g append fileSize st + data.length
      · have hb' : (st.advanced g data append fileSize).bytesWritten < data.length := by
          rw [hbytes, filled]
          omega
        have hnone : NoneFree g d' ↔ NoneFree g d := by rw [noneFree_iff, noneFree_iff, hfree]
        have hrest : 0 + (data.length - (st.advanced g data append fileSize).bytesWritten) =
            roundOffset g append fileSize st + data.length - g.clusterBytes := by
          rw [hbytes, filled]
          omega
        rw [finishes_iff_of_boundary hg hb' (Or.inl hzero)
          fun h => hlink (Or.inr (Or.inr hmore)) (hnone.not.1 h), hzero, hrest, hfree]
        rfl
      · -- the data ends in this cluster
        have hend : ¬ (st.advanced g data append fileSize).bytesWritten < data.length := by
          rw [hbytes, filled]
          omega
        refine iff_of_true (finishes_done hend) (Or.inl ?_)
        rw [Nat.sub_eq_zero_of_le (by omega), g.clustersFor_zero]
  · have hnil : data.length = 0 := by omega
    rw [asked, if_pos hnil]
    exact iff_of_true (finishes_done hb) (Or.inl rfl)

end Loop

/-! ## How the loop begins -/

section Begin

variable {start curr prev fileSize : Nat} {append : Bool}

/-- The clusters that are free when the write loop begins: those of the old chain are, unless the
file is appended to. -/
def available (g : Geometry) (d : Disk) (append : Bool) (start : Nat) : Finset Nat :=
  (Finset.Ico 2 (g.totalClusters + 2)).filter fun c =>
    fat g d c = 0 ∨ append = false ∧ Freed g d g.totalClusters start c

theorem available_append : available g d true start = freeClusters g d := by
  unfold available freeClusters
  simp

/-- `curr_cluster` and `prev_cluster` when the write loop begins. -/
inductive BeginsWith (g : Geometry) (d : Disk) : Bool → Nat → Nat → Nat → Prop
  | fresh {start : Nat} : BeginsWith g d false start 0 0
  | empty {start : Nat} (hstart : start < 2) : BeginsWith g d true start 0 0
  | walked {start curr prev : Nat} (hstart : 2 ≤ start)
      (hwalks : WalksTo g d (start, 0) (curr, prev)) : BeginsWith g d true start curr prev

/-- The place in the last cluster at which the data goes on. -/
theorem roundOffset_begin (append : Bool) (fileSize first curr prev : Nat) :
    roundOffset g append fileSize ⟨first, curr, prev, 0⟩ =
      keptSize append fileSize % g.clusterBytes := by
  cases append with
  | true => exact roundOffset_first ..
  | false => exact (Nat.zero_mod _).symm

/-- The clusters that are free behind `fat16_free_chain`. -/
theorem freeClusters_freed (hg : g.Valid)
    (hfat : ∀ a < 256 * g.sectorsPerFat,
      fat g d' a = if Freed g d g.totalClusters start a then 0 else fat g d a) :
    freeClusters g d' = available g d false start := by
  ext a
  rw [mem_freeClusters, available, Finset.mem_filter, Finset.mem_Ico]
  refine and_congr_right fun ha => ?_
  rw [hfat a (IsCluster.lt_fat hg ha)]
  by_cases hfreed : Freed g d g.totalClusters start a
  · simp [hfreed]
  · simp [hfreed]

/-- The preparation frees the old chain, or walks to its end. -/
theorem prepareWrite_begins (hg : g.Valid)
    (hfrees : append = false → FreesInFat g d g.totalClusters start) {st : WriteState} {d₁ : Disk}
    (h : Yields ((prepareWrite append start).run g kmalloc (clean d)) (st, clean d₁)) :
    BeginsWith g d append start st.currCluster st.prevCluster ∧ st.bytesWritten = 0 ∧
      freeClusters g d₁ = available g d append start := by
  cases append with
  | false =>
      obtain ⟨n, h⟩ := h
      obtain ⟨⟨_, io⟩, hfree, h⟩ := Exec.bind_eq_ret.1 h
      obtain ⟨rfl, rfl⟩ := Prod.mk.inj (Exec.ret.inj h)
      obtain ⟨d', hrun, -, hfat⟩ := freeChain_frame hg kmalloc (hfrees rfl)
      refine ⟨.fresh, rfl, ?_⟩
      by_cases hstart : 2 ≤ start
      · rw [Fs.when, if_pos hstart] at hfree
        obtain rfl : d₁ = d' :=
          congrArg Io.disk (Prod.mk.inj (Exec.ret.inj (hfree.symm.trans (hrun n)))).2
        exact freeClusters_freed hg hfat
      · rw [Fs.when, if_neg hstart] at hfree
        obtain rfl : d = d₁ := congrArg Io.disk (Prod.mk.inj (Exec.ret.inj hfree)).2
        refine freeClusters_freed hg fun a _ => (if_neg ?_).symm
        rintro ⟨k, -, hfreeable, -⟩
        exact hstart (hfreeable 0 (Nat.zero_le k)).1
  | true =>
      rw [available_append]
      by_cases hstart : 2 ≤ start
      · have hrun : prepareWrite true start = (Fs.loop walkRound (start, 0) >>= fun r =>
            pure ⟨start, r.1, r.2, 0⟩) := if_pos hstart
        rw [hrun, yields_bind (regular_loop (fun p => (total_walkRound p).regular) _)
          fun _ => (total_pure _).regular] at h
        obtain ⟨q, hq, _, h⟩ := h
        obtain ⟨hio, hwalks⟩ := walksTo_of_yields hq
        obtain ⟨rfl, hdisk⟩ := Prod.mk.inj (Exec.ret.inj h)
        obtain rfl : d = d₁ := congrArg Io.disk (hio.symm.trans hdisk)
        exact ⟨.walked hstart hwalks, rfl, rfl⟩
      · have hrun : prepareWrite true start = pure ⟨start, 0, 0, 0⟩ := if_neg hstart
        rw [hrun] at h
        obtain ⟨_, h⟩ := h
        obtain ⟨rfl, hdisk⟩ := Prod.mk.inj (Exec.ret.inj h)
        obtain rfl : d = d₁ := congrArg Io.disk hdisk
        exact ⟨.empty (by omega), rfl, rfl⟩

/-- The walk to the end of a chain comes to an end there. -/
theorem WalksTo.yields (kmalloc : Nat → Option (Nat → UInt8)) {p q : Nat × Nat}
    (h : WalksTo g d p q) :
    Yields ((Fs.loop walkRound p).run g kmalloc (clean d)) (q, clean d) := by
  have hround : ∀ p, Yields (fun n => round walkRound ⟨g, n, kmalloc⟩ (p, clean d)) _ :=
    fun p => yields_round ⟨0, walkRound_clean p 0⟩
  have hmono := mono_round (fun p => (total_walkRound p).regular) g kmalloc
  induction h with
  | @last p hlive heof =>
      have hlast := hround p
      rw [if_pos hlive, if_pos heof] at hlast
      exact (Exec.yields_loop hmono).2 (Or.inl hlast)
  | @out p hout =>
      have hlast := hround p
      rw [if_neg hout] at hlast
      exact (Exec.yields_loop hmono).2 (Or.inl hlast)
  | @next p q hlive hgo _ ih =>
      have hnext := hround p
      rw [if_pos hlive, if_neg (by omega)] at hnext
      exact (Exec.yields_loop hmono).2 (Or.inr ⟨_, hnext, ih⟩)

theorem BeginsWith.unique {curr' prev' : Nat} (h : BeginsWith g d append start curr prev)
    (h' : BeginsWith g d append start curr' prev') : curr = curr' ∧ prev = prev' := by
  cases h with
  | fresh =>
      cases h'
      exact ⟨rfl, rfl⟩
  | empty hstart =>
      cases h' with
      | empty => exact ⟨rfl, rfl⟩
      | walked hstart' _ => omega
  | walked hstart hwalks =>
      cases h' with
      | empty hstart' => omega
      | walked _ hwalks' => exact Prod.mk.inj (hwalks.unique hwalks')

/-- The preparation comes to an end. -/
theorem BeginsWith.yields (kmalloc : Nat → Option (Nat → UInt8))
    (h : BeginsWith g d append start curr prev) :
    ∃ st d₁, Yields ((prepareWrite append start).run g kmalloc (clean d)) (st, clean d₁) := by
  cases h with
  | fresh =>
      have htotal : (prepareWrite false start).Total :=
        (total_when (total_freeChain start)).bind fun _ => total_pure _
      obtain ⟨st, d₁, hrun⟩ := htotal.runs g kmalloc d
      exact ⟨st, d₁, 0, hrun 0⟩
  | empty hstart =>
      have hrun : prepareWrite true start = pure ⟨start, 0, 0, 0⟩ := if_neg (Nat.not_le.2 hstart)
      rw [hrun]
      exact ⟨_, d, 0, rfl⟩
  | walked hstart hwalks =>
      have hrun : prepareWrite true start = (Fs.loop walkRound (start, 0) >>= fun r =>
          pure ⟨start, r.1, r.2, 0⟩) := if_pos hstart
      refine ⟨⟨start, curr, prev, 0⟩, d, ?_⟩
      rw [hrun, yields_bind (regular_loop (fun p => (total_walkRound p).regular) _)
        fun _ => (total_pure _).regular]
      exact ⟨_, hwalks.yields kmalloc, 0, rfl⟩

end Begin

end Fat16

end BenmoshOS
