import BenmoshOS.Fat16.WriteFile

/-!
# FAT16: what a write does with the clusters of a file

`fat16_write_file` frees, allocates and links clusters while the entry of its file still names
the old chain, and rewrites the entry last.  Seen from outside, one entry has been replaced.

* `Grows` — what the write loop does to the chain it extends.
* `Rewritten`, `Rewritten.sound` — the entry with its new chain.
* `writeEntry_succeeds` — a write for which there are enough clusters does not fail.
* `writeFile_cases` — what a returning `fat16_write_file` has done.
-/

namespace BenmoshOS

namespace Fat16

open Exec (Yields Halts)
open Fs

variable {g : Geometry} {d d' : Disk} {kmalloc : Nat → Option (Nat → UInt8)}

/-! ## A chain that grows -/

/-- The chain `cs` has been extended to `cs'` with free clusters; no other FAT entry has been
written, and behind the FAT only sectors of the new chain. -/
structure Grows (g : Geometry) (d d' : Disk) (cs cs' : List Nat) : Prop where
  sub : ∀ c ∈ cs, c ∈ cs'
  isCluster : ∀ c ∈ cs', g.IsCluster c
  new : ∀ c ∈ cs', c ∈ cs ∨ fat g d c = 0
  fat_eq : ∀ a, g.IsCluster a → a ∉ cs' → fat g d' a = fat g d a
  sector_eq : ∀ lba, g.rootDirSector ≤ lba → (∀ c ∈ cs', ¬ g.InCluster c lba) → d' lba = d lba

theorem Grows.refl {cs : List Nat} (h : ∀ c ∈ cs, g.IsCluster c) : Grows g d d cs cs :=
  ⟨fun _ hc => hc, h, fun _ hc => Or.inl hc, fun _ _ _ => rfl, fun _ _ _ => rfl⟩

theorem Grows.trans {d₁ : Disk} {cs cs₁ cs' : List Nat} (h : Grows g d d₁ cs cs₁)
    (h' : Grows g d₁ d' cs₁ cs') : Grows g d d' cs cs' where
  sub c hc := h'.sub c (h.sub c hc)
  isCluster := h'.isCluster
  new c hc := by
    by_cases hmem : c ∈ cs₁
    · exact h.new c hmem
    · have hfree := (h'.new c hc).resolve_left hmem
      rw [h.fat_eq c (h'.isCluster c hc) hmem] at hfree
      exact Or.inr hfree
  fat_eq a ha hout := by
    rw [h'.fat_eq a ha hout, h.fat_eq a ha fun hmem => hout (h'.sub a hmem)]
  sector_eq lba hle hout := by
    rw [h'.sector_eq lba hle hout, h.sector_eq lba hle fun c hc => hout c (h'.sub c hc)]

/-- The sectors of a cluster are those of the directory with its number. -/
theorem dirSector_iff_inCluster {c lba : Nat} (hc : 2 ≤ c) :
    DirSector g c lba ↔ g.InCluster c lba := by
  unfold DirSector dirBase dirSectors Geometry.InCluster
  rw [if_neg (by omega), if_neg (by omega)]

/-- Data that is written to a cluster leaves the FAT alone. -/
theorem fat_of_cluster (hg : g.Valid) {c : Nat} (hc : 2 ≤ c)
    (h : ∀ lba, ¬ g.InCluster c lba → d' lba = d lba) {a : Nat} (ha : g.IsCluster a) :
    fat g d' a = fat g d a :=
  fat_of_outside hg (fun lba hlba => h lba fun hin => hlba ((dirSector_iff_inCluster hc).2 hin)) ha

/-! ### One more cluster -/

section Linked

variable {cs : List Nat} {c first : Nat}

theorem Owns.getLastD_mem (h : cs ≠ []) : cs.getLastD 0 ∈ cs := by
  rw [List.getLastD_eq_getLast?, List.getLast?_eq_some_getLast h]
  exact List.getLast_mem h

theorem linked_of_le (hg : g.Valid) {prev : Nat} (hc : g.IsCluster c)
    (hprev : 2 ≤ prev → prev < 256 * g.sectorsPerFat) {lba : Nat} (h : g.rootDirSector ≤ lba) :
    linked g d prev c lba = d lba := by
  have hcf := IsCluster.lt_fat hg hc
  unfold linked
  split
  · rename_i h2
    rw [setFat_of_le (hprev h2) h, setFat_of_le hcf h]
  · exact setFat_of_le hcf h

theorem fat_linked (hg : g.Valid) {prev : Nat} (hc : g.IsCluster c)
    (hprev : 2 ≤ prev → prev < 256 * g.sectorsPerFat) {a : Nat} (ha : g.IsCluster a) :
    fat g (linked g d prev c) a =
      if a = prev then c else if a = c then 0xFFFF else fat g d a := by
  have hcf := IsCluster.lt_fat hg hc
  have haf := IsCluster.lt_fat hg ha
  have hcr := IsCluster.lt_reserved hg hc
  unfold linked
  split
  · rename_i h2
    rw [fat_setFat hg (hprev h2) haf (by omega),
      fat_setFat hg hcf haf (by omega)]
  · have hne : a ≠ prev := by
      rintro rfl
      exact absurd ha.1 (by omega)
    rw [fat_setFat hg hcf haf (by omega), if_neg hne]

/-- A free cluster is linked behind the chain. -/
theorem owns_linked (hg : g.Valid) (h : Owns g d first cs) (hc : LeastFree g d c) :
    Owns g (linked g d (cs.getLastD 0) c) (if first = 0 then c else first) (cs ++ [c]) := by
  have hmem : ∀ a ∈ cs ++ [c], g.IsCluster a := by
    intro a ha
    rcases List.mem_append.1 ha with ha | ha
    · exact h.isCluster a ha
    · rw [List.mem_singleton.1 ha]
      exact hc.isCluster
  have heof : ¬ Eof c := IsCluster.not_eof hg hc.isCluster
  refine ⟨Or.inr ⟨by simp, ?_⟩, hmem⟩
  rcases h.chain with ⟨rfl, rfl⟩ | ⟨hne, hchain⟩
  · have hend : fat g (linked g d 0 c) c = 0xFFFF := by
      have hc2 := hc.isCluster.1
      rw [fat_linked hg hc.isCluster (fun h => absurd h (by omega)) hc.isCluster,
        if_neg (by omega), if_pos rfl]
    rw [if_pos rfl]
    refine ⟨rfl, heof, ?_⟩
    show Eof (fat g (linked g d 0 c) c)
    rw [hend]
    exact (by decide : 0xFFF8 ≤ 0xFFFF)
  · obtain ⟨xs, l, rfl⟩ : ∃ xs l, cs = xs ++ [l] := ⟨_, _, (List.dropLast_append_getLast hne).symm⟩
    have hl : g.IsCluster l := h.isCluster l (by simp)
    have hnodup := hchain.nodup
    have hfree : ∀ a ∈ xs ++ [l], a ≠ c := by
      rintro a ha rfl
      exact h.fat_ne_zero a ha hc.free
    have hfirst : first ≠ 0 := by
      rintro rfl
      have hhead : ∀ ys : List Nat, ys ≠ [] → Chain (fat g d) Eof 0 ys →
          (∀ a ∈ ys, g.IsCluster a) → False := by
        intro ys hys hchain hall
        cases ys with
        | nil => exact hys rfl
        | cons y ys =>
            have := (hall y (List.mem_cons_self ..)).1
            obtain ⟨rfl, -⟩ := hchain
            omega
      exact hhead _ hne hchain h.isCluster
    have hlast : (xs ++ [l]).getLastD 0 = l := by simp
    have hfat : ∀ {a}, g.IsCluster a → fat g (linked g d l c) a = _ :=
      fun ha => fat_linked hg hc.isCluster (fun _ => IsCluster.lt_fat hg hl) ha
    rw [hlast, if_neg hfirst, List.append_assoc]
    refine hchain.snoc (fun a ha => ?_) ?_ heof ?_
    · rw [hfat (h.isCluster a (List.mem_append_left _ ha)), if_neg, if_neg]
      · exact hfree a (List.mem_append_left _ ha)
      · rintro rfl
        exact (List.nodup_append.1 hnodup).2.2 a ha a (List.mem_singleton_self a) rfl
    · rw [hfat hl, if_pos rfl]
    · rw [hfat hc.isCluster, if_neg (hfree l (by simp)).symm, if_pos rfl]
      exact (by decide : 0xFFF8 ≤ 0xFFFF)

end Linked

/-! ## The write loop -/

/-- The number of clusters that hold `n` bytes. -/
def Geometry.clustersFor (g : Geometry) (n : Nat) : Nat := (n + g.clusterBytes - 1) / g.clusterBytes

/-- Bytes that begin at a cluster boundary take one more cluster. -/
theorem Geometry.clustersFor_boundary {n m : Nat} (hn : n % g.clusterBytes = 0) (hlt : n < m)
    (hle : m ≤ n + g.clusterBytes) : g.clustersFor m = g.clustersFor n + 1 := by
  have hpos := g.clusterBytes_pos
  obtain ⟨k, rfl⟩ := Nat.dvd_of_mod_eq_zero hn
  obtain ⟨r, rfl⟩ : ∃ r, m = g.clusterBytes * k + r := ⟨m - g.clusterBytes * k, by omega⟩
  unfold Geometry.clustersFor
  have hone : (r + g.clusterBytes - 1) / g.clusterBytes = 1 :=
    Nat.div_eq_of_lt_le (by omega) (by omega)
  rw [Nat.add_assoc, Nat.add_sub_assoc (by omega), Nat.mul_add_div hpos, hone,
    Nat.add_sub_assoc hpos, Nat.mul_add_div hpos, Nat.div_eq_of_lt (by omega), Nat.add_zero]

/-- Whatever follows a cluster boundary takes more clusters. -/
theorem Geometry.clustersFor_lt {n m : Nat} (hn : n % g.clusterBytes = 0) (hlt : n < m) :
    g.clustersFor n < g.clustersFor m := by
  have hpos := g.clusterBytes_pos
  obtain ⟨k, rfl⟩ := Nat.dvd_of_mod_eq_zero hn
  unfold Geometry.clustersFor
  rw [Nat.add_sub_assoc hpos, Nat.mul_add_div hpos, Nat.div_eq_of_lt (by omega), Nat.add_zero,
    Nat.lt_iff_add_one_le, Nat.le_div_iff_mul_le hpos, Nat.mul_comm, Nat.mul_add]
  omega

/-- The first cluster takes as many bytes as it has. -/
theorem Geometry.clustersFor_step {n : Nat} (hn : 0 < n) :
    g.clustersFor n = g.clustersFor (n - g.clusterBytes) + 1 := by
  have hpos := g.clusterBytes_pos
  unfold Geometry.clustersFor
  by_cases hlast : n ≤ g.clusterBytes
  · rw [Nat.sub_eq_zero_of_le hlast, Nat.div_eq_of_lt (by omega : 0 + g.clusterBytes - 1 < _)]
    exact Nat.div_eq_of_lt_le (by omega) (by omega)
  · rw [← Nat.add_div_right _ hpos]
    congr 1
    omega

/-- Bytes that begin inside a cluster and end in it take none. -/
theorem Geometry.clustersFor_inside {n m : Nat} (hn : n % g.clusterBytes ≠ 0) (hle : n ≤ m)
    (hm : m ≤ n + (g.clusterBytes - n % g.clusterBytes)) :
    g.clustersFor m = g.clustersFor n := by
  have hpos := g.clusterBytes_pos
  have hlt := Nat.mod_lt n hpos
  have hdiv := Nat.div_add_mod n g.clusterBytes
  have hround : ∀ x, n ≤ x → x ≤ n + (g.clusterBytes - n % g.clusterBytes) →
      g.clustersFor x = n / g.clusterBytes + 1 := by
    intro x hx hx'
    obtain ⟨r, rfl⟩ : ∃ r, x = g.clusterBytes * (n / g.clusterBytes) + r :=
      ⟨x - g.clusterBytes * (n / g.clusterBytes), by omega⟩
    have hone : (r + g.clusterBytes - 1) / g.clusterBytes = 1 :=
      Nat.div_eq_of_lt_le (by omega) (by omega)
    unfold Geometry.clustersFor
    rw [Nat.add_assoc, Nat.add_sub_assoc (by omega), Nat.mul_add_div hpos, hone]
  rw [hround m hle hm, hround n le_rfl (by omega)]

section Rounds

variable {st : WriteState} {data : List UInt8} {append : Bool} {fileSize first : Nat}
  {cs : List Nat}

/-- The variables of the write loop name the chain `cs` that it extends. -/
structure Building (g : Geometry) (d : Disk) (cs : List Nat) (st : WriteState) : Prop where
  owns : Owns g d st.firstCluster cs
  curr : st.currCluster = cs.getLastD 0
  prev : st.prevCluster = cs.getLastD 0

/-- The number of bytes of the file in front of those that are written. -/
def keptSize (append : Bool) (fileSize : Nat) : Nat := if append then fileSize else 0

/-- The place in its cluster at which the loop goes on, and the clusters it has got. -/
structure Aligned (g : Geometry) (data : List UInt8) (append : Bool) (fileSize : Nat)
    (cs : List Nat) (st : WriteState) : Prop where
  le : st.bytesWritten ≤ data.length
  offset : st.bytesWritten < data.length → roundOffset g append fileSize st =
    (keptSize append fileSize + st.bytesWritten) % g.clusterBytes
  length : cs.length = g.clustersFor (keptSize append fileSize + st.bytesWritten)

theorem Building.curr_lt (h : Building g d cs st) : st.currCluster < 2 ↔ cs = [] := by
  rw [h.curr]
  constructor
  · intro hlt
    by_contra hne
    have := (h.owns.isCluster _ (Owns.getLastD_mem hne)).1
    omega
  · rintro rfl
    exact Nat.zero_lt_two

/-- A round begins with a new cluster exactly at a cluster boundary. -/
theorem Building.boundary_iff (h : Building g d cs st)
    (ha : Aligned g data append fileSize cs st) (hb : st.bytesWritten < data.length) :
    (roundOffset g append fileSize st = 0 ∨ st.currCluster < 2) ↔
      (keptSize append fileSize + st.bytesWritten) % g.clusterBytes = 0 := by
  rw [ha.offset hb, h.curr_lt]
  refine or_iff_left_of_imp fun hnil => ?_
  have hzero : g.clustersFor (keptSize append fileSize + st.bytesWritten) = 0 := by
    rw [← ha.length, hnil, List.length_nil]
  have hpos := g.clusterBytes_pos
  have hsmall : keptSize append fileSize + st.bytesWritten = 0 := by
    have := (Nat.div_eq_zero_iff.1 hzero).resolve_left (by omega)
    omega
  rw [hsmall, Nat.zero_mod]

/-- What a round does with the alignment. -/
theorem Aligned.advanced (ha : Aligned g data append fileSize cs st)
    (hb : st.bytesWritten < data.length) {st' : WriteState} {cs' : List Nat}
    (hbytes : st'.bytesWritten = filled g data (roundOffset g append fileSize st) st.bytesWritten)
    (hlength : cs'.length = cs.length +
      if (keptSize append fileSize + st.bytesWritten) % g.clusterBytes = 0 then 1 else 0) :
    Aligned g data append fileSize cs' st' := by
  have hlt := filled_lt (roundOffset_lt g append fileSize st) hb
  have hpos := g.clusterBytes_pos
  rw [← hbytes] at hlt
  unfold filled at hbytes
  rw [ha.offset hb] at hbytes
  generalize hn : keptSize append fileSize = n at *
  have hmod := Nat.mod_lt (n + st.bytesWritten) hpos
  refine ⟨hlt.2, fun hmore => ?_, ?_⟩
  · -- the cluster has been filled up to its end
    have hfull : n + st'.bytesWritten =
        n + st.bytesWritten + (g.clusterBytes - (n + st.bytesWritten) % g.clusterBytes) := by
      omega
    have hnext : n + st'.bytesWritten =
        g.clusterBytes * ((n + st.bytesWritten) / g.clusterBytes + 1) := by
      have := Nat.div_add_mod (n + st.bytesWritten) g.clusterBytes
      rw [Nat.mul_add, hfull]
      omega
    rw [roundOffset_eq_zero (by omega), hn, hnext, Nat.mul_mod_right]
  · rw [hlength, ha.length, hn]
    split
    · rename_i hzero
      exact (g.clustersFor_boundary hzero (by omega) (by omega)).symm
    · rename_i hinside
      exact (g.clustersFor_inside hinside (by omega) (by omega)).symm

theorem Building.prev_lt (hg : g.Valid) (h : Building g d cs st) (h2 : 2 ≤ st.prevCluster) :
    st.prevCluster < 256 * g.sectorsPerFat := by
  rw [h.prev] at h2 ⊢
  refine IsCluster.lt_fat hg (h.owns.isCluster _ (Owns.getLastD_mem ?_))
  rintro rfl
  exact absurd h2 (by decide)

/-- A cluster has been linked and filled. -/
theorem Building.extended (data : List UInt8) (append : Bool) (fileSize : Nat) (hg : g.Valid)
    (h : Building g d cs st) {c : Nat}
    (hc : LeastFree g d c) (hframe : ∀ l, ¬ g.InCluster c l → d' l = linked g d st.prevCluster c l) :
    Grows g d d' cs (cs ++ [c]) ∧
      Building g d' (cs ++ [c]) ((st.extended c).advanced g data append fileSize) := by
  have hc2 := hc.isCluster.1
  have hmem : ∀ a ∈ cs ++ [c], g.IsCluster a := by
    intro a ha
    rcases List.mem_append.1 ha with ha | ha
    · exact h.owns.isCluster a ha
    · rw [List.mem_singleton.1 ha]
      exact hc.isCluster
  have hprev := h.prev_lt hg
  have hfat : ∀ a, g.IsCluster a → fat g d' a = fat g (linked g d st.prevCluster c) a :=
    fun a ha => fat_of_cluster hg hc2 hframe ha
  refine ⟨⟨fun a ha => List.mem_append_left _ ha, hmem, fun a ha => ?_, fun a ha hout => ?_,
    fun lba hle hout => ?_⟩, ⟨?_, ?_, ?_⟩⟩
  · rcases List.mem_append.1 ha with ha | ha
    · exact Or.inl ha
    · rw [List.mem_singleton.1 ha]
      exact Or.inr hc.free
  · have hne : a ≠ c := by
      rintro rfl
      exact hout (List.mem_append_right _ (List.mem_singleton_self a))
    have hne' : a ≠ st.prevCluster := by
      rintro rfl
      refine hout (List.mem_append_left _ ?_)
      rw [h.prev]
      refine Owns.getLastD_mem ?_
      rintro rfl
      rw [h.prev] at ha
      exact absurd ha.1 (by decide)
    rw [hfat a ha, fat_linked hg hc.isCluster hprev ha, if_neg hne', if_neg hne]
  · rw [hframe lba (hout c (List.mem_append_right _ (List.mem_singleton_self c))),
      linked_of_le hg hc.isCluster hprev hle]
  · have howns := owns_linked hg h.owns hc
    rw [← h.prev] at howns
    exact howns.congr fun a ha => hfat a (hmem a ha)
  · exact (List.getLastD_concat ..).symm
  · exact (List.getLastD_concat ..).symm

/-- The last cluster of the chain has been filled. -/
theorem Building.filled (data : List UInt8) (append : Bool) (fileSize : Nat) (hg : g.Valid)
    (h : Building g d cs st) (hcurr : ¬ st.currCluster < 2)
    (hframe : ∀ l, ¬ g.InCluster st.currCluster l → d' l = d l) :
    Grows g d d' cs cs ∧ Building g d' cs (st.advanced g data append fileSize) := by
  have hmem : st.currCluster ∈ cs := by
    rw [h.curr]
    exact Owns.getLastD_mem fun hnil => hcurr (h.curr_lt.2 hnil)
  have hfat : ∀ a, g.IsCluster a → fat g d' a = fat g d a :=
    fun a ha => fat_of_cluster hg (by omega) hframe ha
  refine ⟨⟨fun _ hc => hc, h.owns.isCluster, fun _ hc => Or.inl hc, fun a ha _ => hfat a ha,
    fun lba _ hout => hframe lba (hout _ hmem)⟩, ⟨?_, h.curr, h.prev⟩⟩
  exact h.owns.congr fun a ha => hfat a (h.owns.isCluster a ha)

/-- **The write loop.**  It extends the chain to the clusters that the bytes ask for, or until
no cluster is free any more. -/
theorem writeLoop_grows (hg : g.Valid) : ∀ (st : WriteState) (d : Disk) (cs : List Nat)
    {p : Except Int Nat × Io}, Building g d cs st → Aligned g data append fileSize cs st →
    Yields ((Fs.loop (writeRound data append fileSize) st).run g kmalloc (clean d)) p →
    ∃ d' cs' first, p.2 = clean d' ∧ Grows g d d' cs cs' ∧ Owns g d' first cs' ∧
      ((p.1 = .ok first ∧ cs'.length = g.clustersFor (keptSize append fileSize + data.length)) ∨
        (p.1 = .error (-enospc) ∧ NoneFree g d' ∧
          cs'.length < g.clustersFor (keptSize append fileSize + data.length))) := by
  intro st
  induction hk : data.length - st.bytesWritten using Nat.strong_induction_on generalizing st with
  | _ k ih =>
      intro d cs p hbuild halign h
      by_cases hb : st.bytesWritten < data.length
      · have hlt := filled_lt (roundOffset_lt g append fileSize st) hb
        by_cases hboundary : roundOffset g append fileSize st = 0 ∨ st.currCluster < 2
        · have hzero := (hbuild.boundary_iff halign hb).1 hboundary
          rcases writeRound_boundary hg kmalloc hb hboundary d with ⟨c, d₁, hc, hrun, hframe⟩ | ⟨hnone, hrun⟩
          · obtain ⟨hgrows, hbuild₁⟩ := hbuild.extended data append fileSize hg hc hframe
            have hbytes : ((st.extended c).advanced g data append fileSize).bytesWritten =
                Fat16.filled g data (roundOffset g append fileSize st) st.bytesWritten := rfl
            have halign₁ : Aligned g data append fileSize (cs ++ [c])
                ((st.extended c).advanced g data append fileSize) :=
              halign.advanced hb hbytes (by rw [if_pos hzero, List.length_append]; rfl)
            obtain ⟨d', cs', first, hio, hgrows', hrest⟩ := ih _ (by omega) _ rfl d₁ (cs ++ [c])
              hbuild₁ halign₁ ((yields_writeLoop_next hrun).1 h)
            exact ⟨d', cs', first, hio, hgrows.trans hgrows', hrest⟩
          · obtain rfl := (yields_writeLoop_last hrun).1 h
            have hshort := g.clustersFor_lt hzero
              (Nat.add_lt_add_left hb (keptSize append fileSize))
            rw [← halign.length] at hshort
            exact ⟨d, cs, _, rfl, .refl hbuild.owns.isCluster, hbuild.owns,
              Or.inr ⟨rfl, hnone, hshort⟩⟩
        · have hinside := (hbuild.boundary_iff halign hb).not.1 hboundary
          obtain ⟨d₁, hrun, hframe⟩ := writeRound_inside kmalloc hb hboundary d
          obtain ⟨hgrows, hbuild₁⟩ := hbuild.filled data append fileSize hg
            (fun hlow => hboundary (Or.inr hlow)) hframe
          have hbytes : (st.advanced g data append fileSize).bytesWritten =
              Fat16.filled g data (roundOffset g append fileSize st) st.bytesWritten := rfl
          have halign₁ : Aligned g data append fileSize cs (st.advanced g data append fileSize) :=
            halign.advanced hb hbytes (by rw [if_neg hinside, Nat.add_zero])
          obtain ⟨d', cs', first, hio, hgrows', hrest⟩ := ih _ (by omega) _ rfl d₁ cs hbuild₁ halign₁
            ((yields_writeLoop_next hrun).1 h)
          exact ⟨d', cs', first, hio, hgrows.trans hgrows', hrest⟩
      · obtain rfl := (yields_writeLoop_last (writeRound_done hb)).1 h
        have hall : st.bytesWritten = data.length := le_antisymm halign.le (by omega)
        refine ⟨d, cs, _, rfl, .refl hbuild.owns.isCluster, hbuild.owns, Or.inl ⟨rfl, ?_⟩⟩
        rw [halign.length, hall]

end Rounds

/-! ## One entry rewritten -/

section Entry

variable {data : List UInt8} {append : Bool} {D : Nat} {v : Visit} {cs : List Nat}

theorem walksTo_chain (hg : g.Valid) {start : Nat} : ∀ {cs : List Nat} (prev : Nat), cs ≠ [] →
    (∀ c ∈ cs, g.IsCluster c) → Chain (fat g d) Eof start cs →
    WalksTo g d (start, prev) (cs.getLastD 0, cs.getLastD 0) := by
  intro cs
  induction cs generalizing start with
  | nil => exact fun _ hne => absurd rfl hne
  | cons c cs ih =>
      intro prev _ hall hchain
      obtain ⟨rfl, -, hrest⟩ := hchain
      have hc := hall start (List.mem_cons_self ..)
      have hres := IsCluster.lt_reserved hg hc
      have hlive : Live start := ⟨hc.1, by omega⟩
      cases cs with
      | nil => exact .last hlive hrest
      | cons b cs =>
          obtain ⟨hb, -⟩ := id hrest
          have hbres := IsCluster.lt_reserved hg (hall b (by simp))
          have hnext := ih start (by simp) (fun a ha => hall a (List.mem_cons_of_mem _ ha)) hrest
          exact .next hlive (by show fat g d start < _; omega) hnext

/-- The chain and the disk with which the write loop begins. -/
def keptChain (append : Bool) (cs : List Nat) : List Nat := if append then cs else []

def keptDisk (g : Geometry) (d : Disk) (append : Bool) (cs : List Nat) : Disk :=
  if append then d else clearAll g d cs

/-- The first cluster of a chain. -/
theorem Owns.two_le_start {start : Nat} (h : Owns g d start cs) (hne : cs ≠ []) : 2 ≤ start := by
  rcases h.chain with ⟨hnil, -⟩ | ⟨-, hchain⟩
  · exact absurd hnil hne
  · cases cs with
    | nil => exact absurd rfl hne
    | cons c cs =>
        rw [hchain.1]
        exact (h.isCluster c (List.mem_cons_self ..)).1

theorem owns_nil : Owns g d 0 [] := ⟨Or.inl ⟨rfl, rfl⟩, by simp⟩

/-- The first cluster fits the 16-bit field of an entry. -/
theorem Owns.start_lt (hg : g.Valid) {start : Nat} (h : Owns g d start cs) : start < 65536 := by
  rcases h.chain with ⟨-, rfl⟩ | ⟨hne, hchain⟩
  · decide
  · cases cs with
    | nil => exact absurd rfl hne
    | cons c cs =>
        rw [hchain.1]
        have := IsCluster.lt_reserved hg (h.isCluster c (List.mem_cons_self ..))
        omega

theorem building_nil : Building g d [] ⟨0, 0, 0, 0⟩ := ⟨owns_nil, rfl, rfl⟩

/-- An overwritten file begins without a chain, an appended one at its last cluster. -/
theorem prepareWrite_building (hg : g.Valid) {start : Nat} (h : Owns g d start cs)
    {p : WriteState × Io}
    (hp : Yields ((prepareWrite append start).run g kmalloc (clean d)) p) :
    p.2 = clean (keptDisk g d append cs) ∧ p.1.bytesWritten = 0 ∧
      Building g (keptDisk g d append cs) (keptChain append cs) p.1 := by
  cases append with
  | false =>
      obtain ⟨n, hp⟩ := hp
      have hfree : Fs.when (2 ≤ start) (freeChain start) ⟨g, n, kmalloc⟩ (clean d) =
          .ret ((), clean (clearAll g d cs)) := when_freeChain_clean hg h
      have hrun : (prepareWrite false start).run g kmalloc (clean d) n =
          .ret (⟨0, 0, 0, 0⟩, clean (clearAll g d cs)) := by
        have hprepare : prepareWrite false start = (Fs.when (2 ≤ start) (freeChain start) >>=
            fun _ => pure ⟨0, 0, 0, 0⟩) := rfl
        rw [hprepare, Fs.run, Fs.bind_apply, hfree, Exec.ret_bind]
        rfl
      obtain rfl := Exec.ret.inj (hrun.symm.trans hp)
      exact ⟨rfl, rfl, building_nil⟩
  | true =>
      by_cases hne : cs = []
      · subst hne
        obtain rfl : start = 0 := by
          rcases h.chain with ⟨-, hzero⟩ | ⟨hne, -⟩
          · exact hzero
          · exact absurd rfl hne
        obtain ⟨n, hp⟩ := hp
        obtain rfl := Exec.ret.inj hp
        exact ⟨rfl, rfl, building_nil⟩
      · have hstart := h.two_le_start hne
        have hrun : prepareWrite true start = (Fs.loop walkRound (start, 0) >>= fun r =>
            pure ⟨start, r.1, r.2, 0⟩) := if_pos hstart
        rw [hrun, yields_bind (regular_loop (fun p => (total_walkRound p).regular) _)
          fun _ => (total_pure _).regular] at hp
        obtain ⟨q, hq, n, hp⟩ := hp
        obtain ⟨hio, hwalks⟩ := walksTo_of_yields hq
        obtain ⟨-, hchain⟩ := h.chain.resolve_left fun hnil => hne hnil.1
        have hlast := hwalks.unique (walksTo_chain hg 0 hne h.isCluster hchain)
        obtain rfl := Exec.ret.inj hp
        refine ⟨hio, rfl, h, ?_, ?_⟩
        · exact congrArg Prod.fst hlast
        · exact congrArg Prod.snd hlast

/-- The size `fat16_write_file` enters. -/
def newSize (append : Bool) (fileSize : Nat) (data : List UInt8) : Nat :=
  if append then wrap32 (fileSize + data.length) else data.length

/-- The write has replaced the chain `cs` by `ncs` on disk `d₁`, but the entry still names the
old one. -/
structure Rewritten (g : Geometry) (d d₁ : Disk) (cs ncs : List Nat) (first : Nat) : Prop where
  owns : Owns g d₁ first ncs
  new : ∀ c ∈ ncs, c ∈ cs ∨ fat g d c = 0
  freed : ∀ c ∈ cs, c ∉ ncs → fat g d₁ c = 0
  fat_eq : ∀ a, g.IsCluster a → a ∉ cs → a ∉ ncs → fat g d₁ a = fat g d a
  sector_eq : ∀ lba, g.rootDirSector ≤ lba → (∀ c ∈ ncs, ¬ g.InCluster c lba) → d₁ lba = d lba

theorem Grows.rewritten (hg : g.Valid) {start first : Nat} {d₁ : Disk} {ncs : List Nat}
    (hcs : Owns g d start cs)
    (h : Grows g (keptDisk g d append cs) d₁ (keptChain append cs) ncs)
    (hncs : Owns g d₁ first ncs) : Rewritten g d d₁ cs ncs first := by
  cases append with
  | true =>
      have h : Grows g d d₁ cs ncs := h
      exact ⟨hncs, h.new, fun c hc hout => absurd (h.sub c hc) hout,
        fun a ha _ hout => h.fat_eq a ha hout, h.sector_eq⟩
  | false =>
      have h : Grows g (clearAll g d cs) d₁ [] ncs := h
      have hfat : ∀ a, g.IsCluster a →
          fat g (clearAll g d cs) a = if a ∈ cs then 0 else fat g d a :=
        fun a ha => fat_clearAll hg hcs.isCluster (IsCluster.lt_fat hg ha)
      refine ⟨hncs, fun c hc => ?_, fun c hc hout => ?_, fun a ha hold hout => ?_,
        fun lba hle hout => ?_⟩
      · by_cases hold : c ∈ cs
        · exact Or.inl hold
        · have hfree := (h.new c hc).resolve_left (List.not_mem_nil)
          rw [hfat c (h.isCluster c hc), if_neg hold] at hfree
          exact Or.inr hfree
      · have hc' := hcs.isCluster c hc
        rw [h.fat_eq c hc' hout, hfat c hc', if_pos hc]
      · rw [h.fat_eq a ha hout, hfat a ha, if_neg hold]
      · rw [h.sector_eq lba hle hout, clearAll_of_le hg hcs.isCluster hle]

theorem Geometry.clustersFor_zero (g : Geometry) : g.clustersFor 0 = 0 := by
  have := g.clusterBytes_pos
  exact Nat.div_eq_of_lt (by omega)

/-- The alignment with which the write loop begins. -/
theorem aligned_start {fileSize : Nat} {st : WriteState} (hst : st.bytesWritten = 0)
    (hlen : cs.length = g.clustersFor fileSize) :
    Aligned g data append fileSize (keptChain append cs) st := by
  refine ⟨by omega, fun _ => ?_, ?_⟩
  · unfold roundOffset keptSize
    rw [hst, Nat.add_zero]
    cases append with
    | true =>
        by_cases hsize : 0 < fileSize
        · simp [hsize]
        · obtain rfl : fileSize = 0 := by omega
          simp
    | false => simp
  · rw [hst, Nat.add_zero]
    cases append with
    | true => exact hlen
    | false => exact g.clustersFor_zero.symm

/-- **The entry.**  What `fat16_write_file` does with an entry that owns `cs`. -/
theorem writeEntry_cases (hg : g.Valid) (hfile : v.entry.isDirectory = false)
    (hcs : Owns g d v.entry.startingCluster cs)
    (hlen : cs.length = g.clustersFor v.entry.fileSize) {base : Nat} {p : Int × Io}
    (h : Yields ((writeEntry (v.found base) data append).run g kmalloc (clean d)) p) :
    ∃ d₁ first ncs, Rewritten g d d₁ cs ncs first ∧
      ((p = (eok, clean (putRecord d₁ base v.pos (v.entry.withChain first
            (newSize append v.entry.fileSize data)))) ∧
          ncs.length = g.clustersFor (keptSize append v.entry.fileSize + data.length)) ∨
        (p = (-enospc, clean d₁) ∧ NoneFree g d₁ ∧
          ncs.length < g.clustersFor (keptSize append v.entry.fileSize + data.length))) := by
  by_cases hempty : append = false ∧ data.length = 0
  · obtain ⟨rfl, hnil⟩ := hempty
    obtain rfl : data = [] := List.eq_nil_of_length_eq_zero hnil
    obtain ⟨n, h⟩ := h
    have hfree : Fs.when (2 ≤ v.entry.startingCluster) (freeChain v.entry.startingCluster)
        ⟨g, n, kmalloc⟩ (clean d) = .ret ((), clean (clearAll g d cs)) :=
      when_freeChain_clean hg hcs
    have hrun : (writeEntry (v.found base) [] false).run g kmalloc (clean d) n =
        .ret (eok, clean (putRecord (clearAll g d cs) base v.pos (v.entry.withChain 0 0))) := by
      rw [writeEntry_truncate hfile, Fs.run, Fs.bind_apply]
      exact (congrArg (· >>= _) hfree).trans rfl
    have hgrows : Grows g (keptDisk g d false cs) (clearAll g d cs) (keptChain false cs) [] :=
      .refl fun c hc => absurd hc List.not_mem_nil
    refine ⟨_, 0, [], hgrows.rewritten hg hcs owns_nil, Or.inl ⟨?_, ?_⟩⟩
    · exact (Exec.ret.inj (hrun.symm.trans h)).symm
    · exact g.clustersFor_zero.symm
  · have hregular : ∀ st, (writeTail (v.found base) data append st).Regular :=
      regular_writeTail (v.found base) data append
    rw [writeEntry_write hfile hempty, yields_bind (regular_prepareWrite _ _) hregular] at h
    obtain ⟨⟨st, io⟩, hst, h⟩ := h
    obtain ⟨hio, hbytes, hbuild⟩ := prepareWrite_building hg hcs hst
    obtain rfl : io = clean _ := hio
    obtain ⟨⟨r, io⟩, hr, n, h⟩ := (yields_bind (regular_writeLoop _ _ _ _)
      (regular_finishWrite (v.found base) data append)).1 h
    obtain ⟨d₁, ncs, first, hio, hgrows, howns, hresult⟩ := writeLoop_grows hg st _ _ hbuild
      (aligned_start hbytes hlen) hr
    obtain rfl : io = clean d₁ := hio
    refine ⟨d₁, first, ncs, hgrows.rewritten hg hcs howns, ?_⟩
    rcases hresult with ⟨hfirst, hlength⟩ | ⟨hfull, hnone⟩
    · obtain rfl : r = .ok first := hfirst
      exact Or.inl ⟨(Exec.ret.inj h).symm, hlength⟩
    · obtain rfl : r = .error (-enospc) := hfull
      exact Or.inr ⟨(Exec.ret.inj h).symm, hnone⟩

/-! ### Enough clusters -/

/-- The clusters that are free. -/
def freeClusters (g : Geometry) (d : Disk) : Finset Nat :=
  (Finset.Ico 2 (g.totalClusters + 2)).filter fun c => fat g d c = 0

theorem mem_freeClusters {c : Nat} : c ∈ freeClusters g d ↔ g.IsCluster c ∧ fat g d c = 0 := by
  rw [freeClusters, Finset.mem_filter, Finset.mem_Ico, Geometry.IsCluster]

/-- A chain that has been extended until no cluster was free has got all of them. -/
theorem Rewritten.length_of_noneFree {d₁ : Disk} {ncs : List Nat} {start first : Nat}
    (hre : Rewritten g d d₁ cs ncs first) (hcs : Owns g d start cs) (hnone : NoneFree g d₁) :
    cs.length + (freeClusters g d).card ≤ ncs.length := by
  have hdisjoint : Disjoint cs.toFinset (freeClusters g d) := by
    refine Finset.disjoint_left.2 fun c hc hfree => ?_
    exact hcs.fat_ne_zero c (List.mem_toFinset.1 hc) (mem_freeClusters.1 hfree).2
  have hsub : cs.toFinset ∪ freeClusters g d ⊆ ncs.toFinset := by
    intro c hc
    rw [List.mem_toFinset]
    by_contra hout
    rcases Finset.mem_union.1 hc with hold | hfree
    · have hold := List.mem_toFinset.1 hold
      exact hnone c (hcs.isCluster c hold) (hre.freed c hold hout)
    · obtain ⟨hcluster, hzero⟩ := mem_freeClusters.1 hfree
      have hold : c ∉ cs := fun hmem => hcs.fat_ne_zero c hmem hzero
      exact hnone c hcluster ((hre.fat_eq c hcluster hold hout).trans hzero)
  have hcard := Finset.card_le_card hsub
  rwa [Finset.card_union_of_disjoint hdisjoint, List.toFinset_card_of_nodup hcs.nodup,
    List.toFinset_card_of_nodup hre.owns.nodup] at hcard

theorem Owns.chainEnds {start : Nat} (h : Owns g d start cs) : ChainEnds g d start := by
  rcases h.chain with ⟨-, rfl⟩ | ⟨-, hchain⟩
  · exact ⟨0, fun hlive => absurd hlive.1 (Nat.not_succ_le_zero 1)⟩
  · exact ⟨cs.length, fun hlive => Nat.not_le_of_lt hlive.2 hchain.eq_iterate.2⟩

/-- **Room.**  A write does not fail while the volume has as many clusters for the file as its
bytes ask for. -/
theorem writeEntry_succeeds (kmalloc : Nat → Option (Nat → UInt8)) (hg : g.Valid)
    (hfile : v.entry.isDirectory = false) (hcs : Owns g d v.entry.startingCluster cs)
    (hlen : cs.length = g.clustersFor v.entry.fileSize)
    (hroom : g.clustersFor (keptSize append v.entry.fileSize + data.length) ≤
      cs.length + (freeClusters g d).card) (base : Nat) :
    ∃ d₁ first ncs, Rewritten g d d₁ cs ncs first ∧
      ncs.length = g.clustersFor (keptSize append v.entry.fileSize + data.length) ∧
      Succeeds (writeEntry (v.found base) data append) g kmalloc d (putRecord d₁ base v.pos
        (v.entry.withChain first (newSize append v.entry.fileSize data))) := by
  obtain ⟨p, hp⟩ : Halts ((writeEntry (v.found base) data append).run g kmalloc (clean d)) :=
    (halts_writeEntry _ _ _).2 fun _ _ => hcs.chainEnds
  obtain ⟨d₁, first, ncs, hre, ⟨rfl, hlength⟩ | ⟨-, hnone, hshort⟩⟩ :=
    writeEntry_cases hg hfile hcs hlen hp
  · exact ⟨d₁, first, ncs, hre, hlength, hp⟩
  · exact absurd (hre.length_of_noneFree hcs hnone) (by omega)

/-! ### The rewritten entry -/

/-- The entry with a new chain. -/
def Visit.rewritten (v : Visit) (first size : Nat) : Visit := ⟨v.pos, v.buffer, v.entry.withChain first size⟩

theorem isDot_withChain {r : Record} {first size : Nat} : (r.withChain first size).IsDot ↔ r.IsDot := by
  unfold Record.IsDot
  rw [Record.withChain_of_lt (by omega), Record.withChain_of_lt (by omega),
    Record.withChain_of_lt (by omega)]

theorem isEntry_withChain {r : Record} {first size : Nat} (h : r.IsEntry) :
    (r.withChain first size).IsEntry := by
  refine ⟨?_, h.not_lfn, h.not_label⟩
  unfold Record.IsFree
  rw [Record.withChain_of_lt (by omega)]
  exact h.not_free

theorem flagFree_entry {r : Record} (h : r.IsEntry) : FlagFree r :=
  fun hlfn => absurd hlfn h.not_lfn

/-- The directory of a live file is none of the clusters of the file. -/
theorem Sound.dir_not_mem (h : Sound g d) (hv : LiveEntry g d D v)
    (hfile : v.entry.isDirectory = false) (hcs : Owns g d v.entry.startingCluster cs)
    {P : Nat} (hP : IsDir g d P) : P ∉ cs := by
  intro hmem
  have h₀ : P ≠ 0 := by
    rintro rfl
    exact absurd (hcs.isCluster 0 hmem).1 (by decide)
  obtain ⟨Q, u, hu, hudir, rfl⟩ := Sound.parent hP h₀
  obtain ⟨rfl, hpos⟩ := h.disjoint Q u _ D v cs _ hu hv (h.dirChain hu hudir) hcs
    (List.mem_singleton_self _) hmem
  rw [entries_inj hu.mem hv.mem hpos, hfile] at hudir
  cases hudir

/-- The entry of a live file is blanked: its chain belongs to nobody. -/
theorem blanked_sound (hg : g.Valid) (h : Sound g d) (hv : LiveEntry g d D v)
    (hfile : v.entry.isDirectory = false) (hcs : Owns g d v.entry.startingCluster cs) :
    Sound g (putRecord d (dirBase g D) v.pos (v.entry.withChain 0 0)) ∧
      (∀ c, Owned g (putRecord d (dirBase g D) v.pos (v.entry.withChain 0 0)) c ↔
        Owned g d c ∧ c ∉ cs) ∧
      ∀ P, IsDir g (putRecord d (dirBase g D) v.pos (v.entry.withChain 0 0)) P ↔ IsDir g d P := by
  obtain ⟨vs, ts, hbefore, hset, -⟩ := entries_putRecord hv.mem
  have hclip : (v.entry.withChain 0 0).Clipped := (clipped_entry hv.mem).withChain
  have hentry : (v.entry.withChain 0 0).IsEntry := isEntry_withChain (entry_isEntry hv.mem)
  have hout : ∀ lba, ¬ DirSector g D lba →
      putRecord d (dirBase g D) v.pos (v.entry.withChain 0 0) lba = d lba :=
    fun lba hlba => putRecord_of_ne (pos_lt_slots hv.mem) hlba
  have hrec : ∀ P, IsDir g d P → P ≠ D →
      records g (putRecord d (dirBase g D) v.pos (v.entry.withChain 0 0)) P = records g d P :=
    fun P hP hne => records_of_ne (h.dirNumber hv.isDir) (h.dirNumber hP) hne hout
  have hblank : (v.entry.withChain 0 0).isDirectory = false := by
    rw [Record.isDirectory_withChain, hfile]
  have hafter := hset _ hclip hentry
  obtain ⟨hsound, howned⟩ := h.fileChange hv.isDir (some v) (some (v.rewritten 0 0)) cs []
    (fun c hc => fat_of_outside hg hout hc) hrec hbefore hafter
    (flagFree_putRecord (h.flagFree D hv.isDir) hclip (flagFree_entry hentry))
    (zeroTail_putRecord hv.mem (h.zeroTail D hv.isDir) hclip fun hzero =>
      hentry.not_free (Or.inl hzero))
    (by rintro w ⟨⟩; exact ⟨hfile, hv.not_dot, hcs⟩) (by simp)
    (by
      rintro w ⟨⟩
      refine ⟨hblank, isDot_withChain.not.2 hv.not_dot, ?_, ?_, by simp⟩
      · rw [show (v.rewritten 0 0).entry.startingCluster = 0 from
          Record.startingCluster_withChain (by omega)]
        exact owns_nil
      · rw [chainLength, show (v.rewritten 0 0).entry.isDirectory = false from hblank,
          show (v.rewritten 0 0).entry.fileSize = 0 from Record.fileSize_withChain (by omega)]
        exact g.clustersFor_zero.symm)
    (by simp)
  refine ⟨hsound, fun c => by rw [howned c]; simp, ?_⟩
  have hbefore : entries g d D = vs ++ ((some v).toList ++ ts) := hbefore
  have hafter : entries g _ D = vs ++ ((some (v.rewritten 0 0)).toList ++ ts) := hafter
  exact isDir_fileChange hrec hbefore hafter (by rintro w ⟨⟩; exact hfile)
    (by rintro w ⟨⟩; exact hblank)

namespace Rewritten

variable {d₁ : Disk} {ncs : List Nat} {first : Nat}

/-- The new chain takes no cluster of a directory. -/
theorem dir_not_mem (hre : Rewritten g d d₁ cs ncs first) (h : Sound g d)
    (hv : LiveEntry g d D v) (hfile : v.entry.isDirectory = false)
    (hcs : Owns g d v.entry.startingCluster cs) {P : Nat} (hP : IsDir g d P) : P ∉ ncs := by
  intro hmem
  rcases hre.new P hmem with hold | hfree
  · exact h.dir_not_mem hv hfile hcs hP hold
  · have h₀ : P ≠ 0 := by
      rintro rfl
      exact absurd (hre.owns.isCluster 0 hmem).1 (by decide)
    exact (h.owned_dir hP h₀).fat_ne_zero hfree

theorem records_eq (hre : Rewritten g d d₁ cs ncs first) (h : Sound g d)
    (hv : LiveEntry g d D v) (hfile : v.entry.isDirectory = false)
    (hcs : Owns g d v.entry.startingCluster cs) {P : Nat} (hP : IsDir g d P) :
    records g d₁ P = records g d P := by
  refine records_congr fun lba hlba => ?_
  refine hre.sector_eq lba ((g.rootDirSector_le_dirBase P).trans hlba.1) fun c hc hin => ?_
  have hc2 := (hre.owns.isCluster c hc).1
  obtain rfl := hlba.eq (h.dirNumber hP) (Or.inr hc2) ((dirSector_iff_inCluster hc2).2 hin)
  exact hre.dir_not_mem h hv hfile hcs hP hc

/-- The records of the directories, when the entry is written on the new disk. -/
theorem records_putRecord_of (hre : Rewritten g d d₁ cs ncs first) (h : Sound g d)
    (hv : LiveEntry g d D v) (hfile : v.entry.isDirectory = false)
    (hcs : Owns g d v.entry.startingCluster cs) {r : Record} (hr : r.Clipped) {P : Nat}
    (hP : IsDir g d P) :
    records g (putRecord d₁ (dirBase g D) v.pos r) P =
      records g (putRecord d (dirBase g D) v.pos r) P := by
  have hrec := hre.records_eq h hv hfile hcs hP
  by_cases hne : P = D
  · subst hne
    rw [records_putRecord hr, records_putRecord hr, hrec]
  · rw [records_of_ne (h.dirNumber hv.isDir) (h.dirNumber hP) hne
        fun lba hlba => putRecord_of_ne (pos_lt_slots hv.mem) hlba,
      records_of_ne (h.dirNumber hv.isDir) (h.dirNumber hP) hne
        fun lba hlba => putRecord_of_ne (pos_lt_slots hv.mem) hlba, hrec]

/-- With a blank entry, the new disk differs from the old one only where nobody owns
anything. -/
theorem blanked (hre : Rewritten g d d₁ cs ncs first) (hg : g.Valid) (h : Sound g d)
    (hv : LiveEntry g d D v) (hfile : v.entry.isDirectory = false)
    (hcs : Owns g d v.entry.startingCluster cs) :
    Sound g (putRecord d₁ (dirBase g D) v.pos (v.entry.withChain 0 0)) ∧
      (∀ c, Owned g (putRecord d₁ (dirBase g D) v.pos (v.entry.withChain 0 0)) c ↔
        Owned g d c ∧ c ∉ cs) ∧
      ∀ P, IsDir g (putRecord d₁ (dirBase g D) v.pos (v.entry.withChain 0 0)) P ↔ IsDir g d P := by
  obtain ⟨hblank, howned, hdir⟩ := blanked_sound hg h hv hfile hcs
  have hrec : ∀ P, IsDir g d P →
      records g (putRecord d₁ (dirBase g D) v.pos (v.entry.withChain 0 0)) P =
        records g (putRecord d (dirBase g D) v.pos (v.entry.withChain 0 0)) P :=
    fun P hP => hre.records_putRecord_of h hv hfile hcs (clipped_entry hv.mem).withChain hP
  have hfat : ∀ d c, g.IsCluster c →
      fat g (putRecord d (dirBase g D) v.pos (v.entry.withChain 0 0)) c = fat g d c :=
    fun d c hc => fat_of_outside hg (fun lba hlba => putRecord_of_ne (pos_lt_slots hv.mem) hlba) hc
  have hframe : Sound g (putRecord d₁ (dirBase g D) v.pos (v.entry.withChain 0 0)) ∧
      ∀ c, Owned g (putRecord d₁ (dirBase g D) v.pos (v.entry.withChain 0 0)) c ↔
        Owned g (putRecord d (dirBase g D) v.pos (v.entry.withChain 0 0)) c := by
    refine hblank.frame (fun P hP => ?_) fun c hc => ?_
    · exact hrec P ((hdir P).1 hP)
    · obtain ⟨hold, hout⟩ := (howned c).1 hc
      have hncs : c ∉ ncs := by
        intro hmem
        rcases hre.new c hmem with hcs' | hfree
        · exact hout hcs'
        · exact hold.fat_ne_zero hfree
      rw [hfat d₁ c hold.isCluster, hre.fat_eq c hold.isCluster hout hncs, hfat d c hold.isCluster]
  refine ⟨hframe.1, fun c => (hframe.2 c).trans (howned c), fun P => ?_⟩
  rw [← hdir P]
  refine isDir_iff_of_sub fun P hP c => ?_
  unfold Sub
  rw [entries_congr (hrec P ((hdir P).1 hP))]

/-- **The new entry.**  The volume is sound when it is written, and the file owns the new
chain. -/
theorem sound (hre : Rewritten g d d₁ cs ncs first) (hg : g.Valid) (h : Sound g d)
    (hv : LiveEntry g d D v) (hfile : v.entry.isDirectory = false)
    (hcs : Owns g d v.entry.startingCluster cs) {size : Nat} (hsize : size < 2 ^ 32)
    (hlen : ncs.length = g.clustersFor size) :
    Sound g (putRecord d₁ (dirBase g D) v.pos (v.entry.withChain first size)) ∧
      (∀ c, Owned g (putRecord d₁ (dirBase g D) v.pos (v.entry.withChain first size)) c ↔
        (Owned g d c ∧ c ∉ cs) ∨ c ∈ ncs) ∧
      ∀ c, g.IsCluster c →
        fat g (putRecord d₁ (dirBase g D) v.pos (v.entry.withChain first size)) c = fat g d₁ c := by
  obtain ⟨hblank, howned, hdir⟩ := hre.blanked hg h hv hfile hcs
  have hmem₁ : v ∈ entries g d₁ D := by
    rw [entries_congr (hre.records_eq h hv hfile hcs hv.isDir)]
    exact hv.mem
  obtain ⟨vs, ts, -, hset, -⟩ := entries_putRecord hmem₁
  have hclip : ∀ cluster size, (v.entry.withChain cluster size).Clipped :=
    fun _ _ => (clipped_entry hv.mem).withChain
  have hentry : ∀ cluster size, (v.entry.withChain cluster size).IsEntry :=
    fun _ _ => isEntry_withChain (entry_isEntry hv.mem)
  have hout : ∀ cluster size lba, ¬ DirSector g D lba →
      putRecord d₁ (dirBase g D) v.pos (v.entry.withChain cluster size) lba = d₁ lba :=
    fun _ _ lba hlba => putRecord_of_ne (pos_lt_slots hmem₁) hlba
  have hfat : ∀ cluster size c, g.IsCluster c →
      fat g (putRecord d₁ (dirBase g D) v.pos (v.entry.withChain cluster size)) c = fat g d₁ c :=
    fun cluster size c hc => fat_of_outside hg (hout cluster size) hc
  have hfirst := hre.owns.start_lt hg
  have hrecords : ∀ r ∈ records g d₁ D, FlagFree r := by
    rw [hre.records_eq h hv hfile hcs hv.isDir]
    exact h.flagFree D hv.isDir
  have hzero : ZeroTail (records g d₁ D) := by
    rw [hre.records_eq h hv hfile hcs hv.isDir]
    exact h.zeroTail D hv.isDir
  have hfile' : ∀ cluster size, (v.rewritten cluster size).entry.isDirectory = false := by
    intro cluster size
    exact (Record.isDirectory_withChain).trans hfile
  have hstart : ∀ cluster size, cluster < 65536 →
      (v.rewritten cluster size).entry.startingCluster = cluster :=
    fun _ _ hlt => Record.startingCluster_withChain hlt
  obtain ⟨hsound, hnew⟩ := hblank.fileChange ((hdir D).2 hv.isDir) (some (v.rewritten 0 0))
    (some (v.rewritten first size)) [] ncs
    (fun c hc => (hfat first size c hc).trans (hfat 0 0 c hc).symm)
    (fun P hP hne => by
      have hP := (hdir P).1 hP
      rw [records_of_ne (h.dirNumber hv.isDir) (h.dirNumber hP) hne (hout first size),
        records_of_ne (h.dirNumber hv.isDir) (h.dirNumber hP) hne (hout 0 0)])
    (hset _ (hclip 0 0) (hentry 0 0)) (hset _ (hclip first size) (hentry first size))
    (flagFree_putRecord hrecords (hclip first size) (flagFree_entry (hentry first size)))
    (zeroTail_putRecord hmem₁ hzero (hclip first size) fun hz =>
      (hentry first size).not_free (Or.inl hz))
    (by
      rintro w ⟨⟩
      refine ⟨hfile' 0 0, isDot_withChain.not.2 hv.not_dot, ?_⟩
      rw [hstart 0 0 (by omega)]
      exact owns_nil)
    (by simp)
    (by
      rintro w ⟨⟩
      refine ⟨hfile' first size, isDot_withChain.not.2 hv.not_dot, ?_, ?_, fun c hc ho => ?_⟩
      · rw [hstart first size hfirst]
        exact hre.owns.congr fun c hc => hfat 0 0 c (hre.owns.isCluster c hc)
      · rw [chainLength, hfile' first size, hlen,
          show (v.rewritten first size).entry.fileSize = size from Record.fileSize_withChain hsize]
        rfl
      · obtain ⟨hold, hcs'⟩ := (howned c).1 ho
        rcases hre.new c hc with hin | hfree
        · exact absurd hin hcs'
        · exact absurd hfree hold.fat_ne_zero)
    (by simp)
  refine ⟨hsound, fun c => ?_, fun c hc => hfat first size c hc⟩
  rw [hnew c, howned c]
  simp

end Rewritten

end Entry

/-! ## `fat16_write_file` -/

section Write

variable {env : Env} {io' : Io} {code : Int} {path data : List UInt8} {append : Bool}

/-- What `fat16_write_file` does with the entry it has found in directory `D`: the file has got
its new chain, or no cluster is free any more and the chain is still too short. -/
def Writes (g : Geometry) (d : Disk) (data : List UInt8) (append : Bool) (D : Nat) (v : Visit)
    (code : Int) (io' : Io) : Prop :=
  ∃ cs d₁ first ncs, Owns g d v.entry.startingCluster cs ∧ Rewritten g d d₁ cs ncs first ∧
    ((code = eok ∧ io' = clean (putRecord d₁ (dirBase g D) v.pos (v.entry.withChain first
          (newSize append v.entry.fileSize data))) ∧
        ncs.length = g.clustersFor (keptSize append v.entry.fileSize + data.length)) ∨
      (code = -enospc ∧ io' = clean d₁ ∧ NoneFree g d₁ ∧
        ncs.length < g.clustersFor (keptSize append v.entry.fileSize + data.length)))

/-- An entry that has been found on a sound volume is a directory, or it is written. -/
theorem Sound.writeEntry (hg : env.geom.Valid) (h : Sound env.geom d) {D : Nat}
    (hD : IsDir env.geom d D) {v : Visit} (hv : v ∈ entries env.geom d D)
    (hrun : writeEntry (v.found (dirBase env.geom D)) data append env (clean d) =
      .ret (code, io')) :
    (code < 0 ∧ io' = clean d) ∨ (v.entry.isDirectory = false ∧ LiveEntry env.geom d D v ∧
      Writes env.geom d data append D v code io') := by
  by_cases hdir : v.entry.isDirectory = true
  · have hrefused : Fat16.writeEntry (v.found (dirBase env.geom D)) data append = pure (-eisdir) :=
      if_pos hdir
    rw [hrefused] at hrun
    obtain ⟨rfl, rfl⟩ := Prod.mk.inj (Exec.ret.inj hrun)
    exact Or.inl ⟨by decide, rfl⟩
  · have hfile : v.entry.isDirectory = false := by simpa using hdir
    have hlive := h.live_file hD hv hfile
    obtain ⟨cs, hcs, hlen⟩ := h.chain D v hlive
    rw [chainLength, if_neg hdir] at hlen
    have hyields : Yields ((Fat16.writeEntry (v.found (dirBase env.geom D)) data append).run
        env.geom env.kmalloc (clean d)) (code, io') := ⟨env.fuel, hrun⟩
    obtain ⟨d₁, first, ncs, hre, hresult⟩ := writeEntry_cases hg hfile hcs hlen hyields
    refine Or.inr ⟨hfile, hlive, cs, d₁, first, ncs, hcs, hre, ?_⟩
    rcases hresult with ⟨hp, hlength⟩ | ⟨hp, hnone⟩
    · obtain ⟨rfl, rfl⟩ := Prod.mk.inj hp
      exact Or.inl ⟨rfl, rfl, hlength⟩
    · obtain ⟨rfl, rfl⟩ := Prod.mk.inj hp
      exact Or.inr ⟨rfl, rfl, hnone⟩

/-- A returning `fat16_write_file` has written nothing, or the file it has found, or the file it
has made. -/
theorem writeFile_cases (hg : env.geom.Valid) (hfuel : 2 ≤ env.fuel) (h : Sound env.geom d)
    (hpath : AsciiPath path) (hrun : writeFile path data append env (clean d) = .ret (code, io')) :
    (code < 0 ∧ io' = clean d) ∨ ∃ D name, Resolves env d path D name ∧
      ((∃ v, lookup env.geom d D name = some v ∧ v.entry.isDirectory = false ∧
          LiveEntry env.geom d D v ∧ Writes env.geom d data append D v code io') ∨
        (lookup env.geom d D name = none ∧ ∃ d₁,
          Inserted env.geom d D name attrArchive 0 0 d₁ ∧ ((code < 0 ∧ io' = clean d₁) ∨
            ∃ v, lookup env.geom d₁ D name = some v ∧ v.entry.isDirectory = false ∧
              LiveEntry env.geom d₁ D v ∧ Writes env.geom d₁ data append D v code io'))) := by
  rcases resolve_cases hg hfuel h (fun e => rfl) hrun with herr | ⟨D, name, hres, hrun⟩
  · exact Or.inl herr
  · simp only [Fs.bind_apply, h.findInDir hg hfuel hres.isDir, Exec.ret_bind] at hrun
    cases hl : lookup env.geom d D name with
    | some v =>
        simp only [hl, Option.map_some] at hrun
        rcases h.writeEntry hg hres.isDir (lookup_mem hl).1 hrun with herr | ⟨hfile, hlive, hwrites⟩
        · exact Or.inl herr
        · exact Or.inr ⟨D, name, hres, Or.inl ⟨v, hl, hfile, hlive, hwrites⟩⟩
    | none =>
        simp only [hl, Option.map_none] at hrun
        obtain ⟨⟨res, io₁⟩, hinsert, hrun⟩ := Exec.bind_eq_ret.1 hrun
        rcases insertEntry_cases (h.scannable hg hres.isDir) hfuel hinsert with
          ⟨rfl, rfl, -⟩ | ⟨rfl, d₁, rfl, hins⟩
        · obtain ⟨hcode, rfl⟩ := Prod.mk.inj (Exec.ret.inj hrun)
          have hcode : -enospc = code := hcode
          exact Or.inl ⟨hcode ▸ by decide, rfl⟩
        · refine Or.inr ⟨D, name, hres, Or.inr ⟨hl, d₁, hins, ?_⟩⟩
          obtain ⟨h₁, -⟩ := hins.file_sound hg h hres.isDir
            (hres.component.ascii hpath) hres.component.length_le
          have hD₁ : IsDir env.geom d₁ D := (hins.file_isDir h hres.isDir
            (hres.component.ascii hpath) hres.component.length_le D).2 hres.isDir
          simp only [ne_eq, not_true_eq_false, if_false, Fs.bind_apply,
            h₁.findInDir hg hfuel hD₁, Exec.ret_bind] at hrun
          cases hl₁ : lookup env.geom d₁ D name with
          | none =>
              simp only [hl₁, Option.map_none, Fs.pure_apply] at hrun
              obtain ⟨rfl, rfl⟩ := Prod.mk.inj (Exec.ret.inj hrun)
              exact Or.inl ⟨by decide, rfl⟩
          | some v =>
              simp only [hl₁, Option.map_some] at hrun
              rcases h₁.writeEntry hg hD₁ (lookup_mem hl₁).1 hrun with herr | ⟨hfile, hlive, hwrites⟩
              · exact Or.inl herr
              · exact Or.inr ⟨v, rfl, hfile, hlive, hwrites⟩

end Write

end Fat16

end BenmoshOS
