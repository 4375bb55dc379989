import BenmoshOS.Fat16.ChainWalks
import BenmoshOS.Fat16.NameMap

/-!
# FAT16: what a file holds

The write loop of `fat16_write_file` puts the data behind what the chain of the file holds, one
cluster a round; `fat16_load_file` reads it back.

* `Holds` — the bytes in the clusters of a chain, in their order.
* `writeRound_holds`, `writeLoop_holds` — one round of the write loop, and the whole loop.
* `Stores` — a written entry: its chain holds the old bytes and the new ones.
* `fileBytes`, `loadFile_reads` — what is in a file is what is loaded.
-/

namespace BenmoshOS

namespace Fat16

open Exec (Yields Halts)
open Fs

variable {g : Geometry} {d d' : Disk} {kmalloc : Nat → Option (Nat → UInt8)}

/-! ## The sectors of a cluster -/

section Sectors

variable {data : List UInt8} {lba k : Nat}

theorem byteAt_congr (h : d' (lba + k / 512) = d (lba + k / 512)) :
    byteAt d' lba k = byteAt d lba k := by
  rw [byteAt, byteAt, h]

/-- What the sectors of one cluster hold behind the bytes that were there. -/
theorem writeSectors_bytes : ∀ (n lba secOffset b : Nat) (d : Disk) {env : Env}
    {r : Except Int Nat}, secOffset < 512 → b ≤ data.length →
    writeSectors data n lba secOffset b env (clean d) = .ret (r, clean d') →
    (∀ k < secOffset, byteAt d' lba k = byteAt d lba k) ∧
      ∀ i, b + i < data.length → secOffset + i < 512 * n →
        byteAt d' lba (secOffset + i) = data.getD (b + i) 0 := by
  intro n
  induction n with
  | zero =>
      intro lba secOffset b d env r _ _ hrun
      obtain ⟨-, hio⟩ := Prod.mk.inj (Exec.ret.inj hrun)
      obtain rfl : d = d' := congrArg Io.disk hio
      exact ⟨fun _ _ => rfl, fun i _ hi => by omega⟩
  | succ n ih =>
      intro lba secOffset b d env r hoffset hb hrun
      by_cases hmore : b < data.length
      · generalize hbuf : (if 0 < secOffset ∨ data.length - b < 512 then d lba
          else fun _ => 0 : Sector) = buf
        have hread : (if 0 < secOffset ∨ data.length - b < 512 then ataReadSector .data lba
            else pure (some fun _ => 0) : Fs (Option Sector)) env (clean d) =
            .ret (some buf, clean d) := by
          rw [← hbuf]
          split
          · rfl
          · rfl
        rw [writeSectors, if_pos hmore] at hrun
        simp only [Fs.bind_apply, hread, Exec.ret_bind, ataWriteSector_clean, if_true] at hrun
        have hchunk : min (512 - secOffset) (data.length - b) ≤ data.length - b :=
          Nat.min_le_right _ _
        obtain ⟨-, hrest⟩ := ih (lba + 1) 0 _ _ (by omega) (by omega) hrun
        obtain ⟨d₁, hrun₁, hframe⟩ := writeSectors_clean data n (lba + 1) 0
          (b + min (512 - secOffset) (data.length - b)) (d.set lba (patch buf secOffset
            ((data.drop b).take (min (512 - secOffset) (data.length - b))))) (by omega) (by omega)
        obtain rfl : d₁ = d' :=
          congrArg Io.disk (Prod.mk.inj (Exec.ret.inj ((hrun₁ env).symm.trans hrun))).2
        have hhere : d₁ lba = patch buf secOffset
            ((data.drop b).take (min (512 - secOffset) (data.length - b))) := by
          rw [hframe lba (by omega), Disk.set_self]
        refine ⟨fun k hk => ?_, fun i hi hin => ?_⟩
        · rw [byteAt_of_lt (by omega), byteAt_of_lt (by omega), hhere, patch_of_not_mem (Or.inl hk),
            ← hbuf, if_pos (Or.inl (by omega))]
        · by_cases hsector : secOffset + i < 512
          · have hlen : i <
                ((data.drop b).take (min (512 - secOffset) (data.length - b))).length := by
              rw [List.length_take, List.length_drop]
              omega
            rw [byteAt_of_lt hsector, hhere, patch_add hlen, List.getD_eq_getElem _ _ hlen,
              List.getElem_take, List.getElem_drop, List.getD_eq_getElem _ _ hi]
          · have hfull : min (512 - secOffset) (data.length - b) = 512 - secOffset := by omega
            have hnext := hrest (secOffset + i - 512) (by omega) (by omega)
            rw [Nat.zero_add, byteAt_succ, Nat.sub_add_cancel (by omega)] at hnext
            rw [hnext, hfull]
            exact congrArg (data.getD · 0) (by omega)
      · rw [writeSectors, if_neg hmore] at hrun
        obtain ⟨-, hio⟩ := Prod.mk.inj (Exec.ret.inj hrun)
        obtain rfl : d = d' := congrArg Io.disk hio
        exact ⟨fun _ _ => rfl, fun i hi _ => by omega⟩

end Sectors

/-! ## What a chain holds -/

section Holds

variable {cs xs : List Nat} {c k : Nat} {bytes more : List UInt8}

/-- The clusters `cs` hold the bytes, in their order. -/
def Holds (g : Geometry) (d : Disk) (cs : List Nat) (bytes : List UInt8) : Prop :=
  ∀ k < bytes.length, ∃ c, cs[k / g.clusterBytes]? = some c ∧
    byteAt d (g.clusterLba c) (k % g.clusterBytes) = bytes.getD k 0

theorem holds_nil : Holds g d cs [] := fun k hk => absurd hk (Nat.not_lt_zero k)

theorem inCluster_byte (hk : k < g.clusterBytes) : g.InCluster c (g.clusterLba c + k / 512) := by
  unfold Geometry.clusterBytes at hk
  unfold Geometry.InCluster
  omega

theorem not_inCluster {a lba : Nat} (ha : 2 ≤ a) (hc : 2 ≤ c) (hne : a ≠ c)
    (h : g.InCluster a lba) : ¬ g.InCluster c lba := fun hin =>
  hne (((dirSector_iff_inCluster ha).2 h).eq (Or.inr ha) (Or.inr hc)
    ((dirSector_iff_inCluster hc).2 hin))

/-- The clusters keep what they hold when their sectors are not written. -/
theorem Holds.congr (h : Holds g d cs bytes)
    (hsame : ∀ c ∈ cs, ∀ lba, g.InCluster c lba → d' lba = d lba) : Holds g d' cs bytes := by
  intro k hk
  obtain ⟨c, hc, hbyte⟩ := h k hk
  refine ⟨c, hc, ?_⟩
  rw [byteAt_congr (hsame c (List.mem_of_getElem? hc) _
    (inCluster_byte (Nat.mod_lt k g.clusterBytes_pos))), hbyte]

theorem Holds.of_append (h : Holds g d cs (bytes ++ more)) : Holds g d cs bytes := by
  intro k hk
  obtain ⟨c, hc, hbyte⟩ := h k (by rw [List.length_append]; omega)
  rw [List.getD_append _ _ _ _ hk] at hbyte
  exact ⟨c, hc, hbyte⟩

/-- One more cluster behind full ones. -/
theorem Holds.extend (h : Holds g d cs bytes) (hfull : bytes.length = cs.length * g.clusterBytes)
    (hlen : more.length ≤ g.clusterBytes)
    (hsame : ∀ c ∈ cs, ∀ lba, g.InCluster c lba → d' lba = d lba)
    (hnew : ∀ i < more.length, byteAt d' (g.clusterLba c) i = more.getD i 0) :
    Holds g d' (cs ++ [c]) (bytes ++ more) := by
  have hpos := g.clusterBytes_pos
  intro k hk
  rw [List.length_append] at hk
  by_cases hold : k < bytes.length
  · obtain ⟨a, ha, hbyte⟩ := h.congr hsame k hold
    refine ⟨a, ?_, ?_⟩
    · rw [List.getElem?_append_left (List.getElem?_eq_some_iff.1 ha).1, ha]
    · rw [hbyte, List.getD_append _ _ _ _ hold]
  · obtain ⟨i, rfl⟩ : ∃ i, k = cs.length * g.clusterBytes + i := ⟨k - bytes.length, by omega⟩
    have hi : i < g.clusterBytes := by omega
    refine ⟨c, ?_, ?_⟩
    · rw [Nat.mul_comm, Nat.mul_add_div hpos, Nat.div_eq_of_lt hi, Nat.add_zero,
        List.getElem?_append_right (Nat.le_refl _), Nat.sub_self, List.getElem?_cons_zero]
    · rw [Nat.mul_add_mod_self_right, Nat.mod_eq_of_lt hi, hnew i (by omega), ← hfull,
        List.getD_append_right _ _ _ _ (Nat.le_add_right _ _), Nat.add_sub_cancel_left]

/-- The last cluster is filled up. -/
theorem Holds.fill (h : Holds g d (xs ++ [c]) bytes)
    (hlast : bytes.length / g.clusterBytes = xs.length)
    (hlen : bytes.length % g.clusterBytes + more.length ≤ g.clusterBytes)
    (hsame : ∀ a ∈ xs, ∀ lba, g.InCluster a lba → d' lba = d lba)
    (hkept : ∀ k < bytes.length % g.clusterBytes,
      byteAt d' (g.clusterLba c) k = byteAt d (g.clusterLba c) k)
    (hnew : ∀ i < more.length, byteAt d' (g.clusterLba c) (bytes.length % g.clusterBytes + i) =
      more.getD i 0) : Holds g d' (xs ++ [c]) (bytes ++ more) := by
  have hpos := g.clusterBytes_pos
  have hdiv := Nat.div_add_mod bytes.length g.clusterBytes
  rw [hlast] at hdiv
  intro k hk
  rw [List.length_append] at hk
  have hkdiv := Nat.div_add_mod k g.clusterBytes
  have hkmod := Nat.mod_lt k hpos
  by_cases hbefore : k / g.clusterBytes < xs.length
  · have hmul := Nat.mul_le_mul_left g.clusterBytes hbefore
    rw [Nat.mul_succ] at hmul
    have hold : k < bytes.length := by omega
    obtain ⟨a, ha, hbyte⟩ := h k hold
    refine ⟨a, ha, ?_⟩
    rw [List.getElem?_append_left hbefore] at ha
    rw [byteAt_congr (hsame a (List.mem_of_getElem? ha) _ (inCluster_byte hkmod)), hbyte,
      List.getD_append _ _ _ _ hold]
  · have hindex : k / g.clusterBytes = xs.length := by
      refine Nat.le_antisymm (Nat.le_of_not_lt fun hlt => ?_) (Nat.le_of_not_lt hbefore)
      have hmul := Nat.mul_le_mul_left g.clusterBytes hlt
      rw [Nat.mul_succ] at hmul
      omega
    rw [hindex] at hkdiv
    have hc : (xs ++ [c])[k / g.clusterBytes]? = some c := by
      rw [hindex, List.getElem?_append_right (Nat.le_refl _), Nat.sub_self, List.getElem?_cons_zero]
    refine ⟨c, hc, ?_⟩
    by_cases hold : k < bytes.length
    · obtain ⟨a, ha, hbyte⟩ := h k hold
      obtain rfl := Option.some.inj (hc.symm.trans ha)
      rw [hkept _ (by omega), hbyte, List.getD_append _ _ _ _ hold]
    · obtain ⟨i, hi⟩ : ∃ i, k % g.clusterBytes = bytes.length % g.clusterBytes + i :=
        ⟨k % g.clusterBytes - bytes.length % g.clusterBytes, by omega⟩
      rw [hi, hnew i (by omega), List.getD_append_right _ _ _ _ (by omega)]
      exact congrArg (more.getD · 0) (by omega)

end Holds

/-! ## Rounds of the write loop -/

section Rounds

variable {st st' : WriteState} {data kept : List UInt8} {append : Bool} {fileSize n : Nat}
  {cs : List Nat}

/-- A round writes its part of the data into the cluster it has got. -/
theorem fillCluster_bytes {offset : Nat} (hoffset : offset < g.clusterBytes)
    (hb : st.bytesWritten ≤ data.length)
    (hrun : (fillCluster data offset g (some st)).run g kmalloc (clean d) n =
      .ret (.inl st', clean d')) :
    (∀ k < offset, byteAt d' (g.clusterLba st.currCluster) k =
        byteAt d (g.clusterLba st.currCluster) k) ∧
      ∀ i, st.bytesWritten + i < data.length → offset + i < g.clusterBytes →
        byteAt d' (g.clusterLba st.currCluster) (offset + i) =
          data.getD (st.bytesWritten + i) 0 := by
  have hsec : offset % 512 < 512 := Nat.mod_lt offset (by omega)
  have hdiv := Nat.div_add_mod offset 512
  obtain ⟨d₁, hwrite, hframe⟩ := writeSectors_clean data (g.sectorsPerCluster - offset / 512)
    (g.clusterLba st.currCluster + offset / 512) _ _ d hsec hb
  simp only [Fs.run, fillCluster, Fs.bind_apply, hwrite, Exec.ret_bind] at hrun
  obtain rfl : d₁ = d' := congrArg Io.disk (Prod.mk.inj (Exec.ret.inj hrun)).2
  obtain ⟨hkept, hnew⟩ := writeSectors_bytes _ _ _ _ d hsec hb (hwrite ⟨g, 0, kmalloc⟩)
  unfold Geometry.clusterBytes at hoffset
  -- byte `k` of the cluster is byte `k - 512 * (offset / 512)` of the sectors from the first one on
  have hshift : ∀ (e : Disk) (k : Nat), byteAt e (g.clusterLba st.currCluster + offset / 512) k =
      byteAt e (g.clusterLba st.currCluster) (512 * (offset / 512) + k) := by
    intro e k
    rw [byteAt, byteAt, Nat.mul_add_div (by omega), Nat.mul_add_mod, Nat.add_assoc]
  refine ⟨fun k hk => ?_, fun i hi hin => ?_⟩
  · by_cases hsector : k < 512 * (offset / 512)
    · refine byteAt_congr (hframe _ (Or.inl ?_))
      omega
    · obtain ⟨j, rfl⟩ : ∃ j, k = 512 * (offset / 512) + j := ⟨k - 512 * (offset / 512), by omega⟩
      rw [← hshift, ← hshift, hkept j (by omega)]
  · unfold Geometry.clusterBytes at hin
    have hbyte := hnew i hi (by omega)
    rw [hshift, ← Nat.add_assoc, hdiv] at hbyte
    exact hbyte

/-- Whole clusters of bytes. -/
theorem clustersFor_mul (h : n % g.clusterBytes = 0) : n = g.clustersFor n * g.clusterBytes := by
  have hpos := g.clusterBytes_pos
  obtain ⟨q, rfl⟩ := Nat.dvd_of_mod_eq_zero h
  unfold Geometry.clustersFor
  rw [Nat.add_sub_assoc hpos, Nat.mul_add_div hpos, Nat.div_eq_of_lt (by omega), Nat.add_zero,
    Nat.mul_comm]

/-- Bytes that end inside a cluster. -/
theorem clustersFor_inside_eq (h : n % g.clusterBytes ≠ 0) :
    g.clustersFor n = n / g.clusterBytes + 1 := by
  have hpos := g.clusterBytes_pos
  have hdiv := Nat.div_add_mod n g.clusterBytes
  have hmod := Nat.mod_lt n hpos
  unfold Geometry.clustersFor
  refine Nat.div_eq_of_lt_le ?_ ?_
  · rw [Nat.mul_comm, Nat.mul_add]
    omega
  · rw [Nat.mul_comm, Nat.mul_add, Nat.mul_add]
    omega

/-- A round behind the choice of its cluster. -/
theorem writeRound_next (hb : st.bytesWritten < data.length) {r : Option WriteState} {d₁ : Disk}
    (hnext : (nextCluster (roundOffset g append fileSize st) st).run g kmalloc (clean d) n =
      .ret (r, clean d₁)) :
    (writeRound data append fileSize st).run g kmalloc (clean d) n =
      (fillCluster data (roundOffset g append fileSize st) g r).run g kmalloc (clean d₁) n := by
  rw [Fs.run] at hnext
  rw [writeRound_eq, Fs.run]
  simp only [Fs.bind_apply, Fs.geometry_apply, Exec.ret_bind, if_pos hb, hnext]
  rfl

/-- The bytes of the file after a round. -/
theorem take_advanced (hb : st.bytesWritten < data.length) :
    data.take (st.advanced g data append fileSize).bytesWritten = data.take st.bytesWritten ++
      (data.drop st.bytesWritten).take (g.clusterBytes - roundOffset g append fileSize st) := by
  rw [← List.take_add, show (st.advanced g data append fileSize).bytesWritten =
    min data.length (st.bytesWritten + (g.clusterBytes - roundOffset g append fileSize st))
    from rfl,
    List.take_eq_take_iff]
  omega

/-- The part of the data that a round writes. -/
theorem getD_part {i m : Nat} (hi : i < ((data.drop st.bytesWritten).take m).length) :
    st.bytesWritten + i < data.length ∧ i < m ∧
      ((data.drop st.bytesWritten).take m).getD i 0 = data.getD (st.bytesWritten + i) 0 := by
  have hlen := hi
  rw [List.length_take, List.length_drop] at hlen
  have hlt : st.bytesWritten + i < data.length := by omega
  rw [List.getD_eq_getElem _ _ hi, List.getElem_take, List.getElem_drop,
    List.getD_eq_getElem _ _ hlt]
  exact ⟨hlt, by omega, rfl⟩

/-- The bytes that the chain holds when the loop has come to `st`. -/
def sofar (kept data : List UInt8) (st : WriteState) : List UInt8 :=
  kept ++ data.take st.bytesWritten

theorem length_sofar (hkept : kept.length = keptSize append fileSize)
    (hb : st.bytesWritten ≤ data.length) :
    (sofar kept data st).length = keptSize append fileSize + st.bytesWritten := by
  rw [sofar, List.length_append, List.length_take, hkept, Nat.min_eq_left hb]

/-- A cluster is linked and filled. -/
theorem Holds.extended (hg : g.Valid) (hbuild : Building g d cs st)
    (halign : Aligned g data append fileSize cs st)
    (hkept : kept.length = keptSize append fileSize) (hb : st.bytesWritten < data.length)
    (hzero : (keptSize append fileSize + st.bytesWritten) % g.clusterBytes = 0) {c : Nat}
    (hc : LeastFree g d c)
    (hframe : ∀ l, ¬ g.InCluster c l → d' l = linked g d st.prevCluster c l)
    (hnew : ∀ i, st.bytesWritten + i < data.length → roundOffset g append fileSize st + i <
      g.clusterBytes → byteAt d' (g.clusterLba c) (roundOffset g append fileSize st + i) =
        data.getD (st.bytesWritten + i) 0)
    (h : Holds g d cs (sofar kept data st)) :
    Holds g d' (cs ++ [c]) (sofar kept data ((st.extended c).advanced g data append fileSize)) := by
  have hoffset : roundOffset g append fileSize st = 0 := by rw [halign.offset hb, hzero]
  have hadvanced : sofar kept data ((st.extended c).advanced g data append fileSize) =
      sofar kept data st ++ (data.drop st.bytesWritten).take g.clusterBytes := by
    have hbytes : (st.extended c).bytesWritten < data.length := hb
    rw [sofar, take_advanced hbytes, sofar, List.append_assoc]
    show _ ++ (_ ++ List.take (_ - roundOffset g append fileSize st) _) = _
    rw [hoffset, Nat.sub_zero]
    rfl
  rw [hadvanced]
  refine h.extend ?_ (List.length_take_le _ _) (fun a ha lba hlba => ?_) fun i hi => ?_
  · rw [length_sofar hkept hb.le, halign.length]
    exact clustersFor_mul hzero
  · have ha' := hbuild.owns.isCluster a ha
    have hne : a ≠ c := by
      rintro rfl
      exact hbuild.owns.fat_ne_zero a ha hc.free
    have hle : g.rootDirSector ≤ lba :=
      (g.rootDirSector_le_dirBase a).trans ((dirSector_iff_inCluster ha'.1).2 hlba).1
    rw [hframe lba (not_inCluster ha'.1 hc.isCluster.1 hne hlba),
      linked_of_le hg hc.isCluster (hbuild.prev_lt hg) hle]
  · obtain ⟨hlt, hcb, hpart⟩ := getD_part hi
    rw [hpart, ← hnew i hlt (by omega), hoffset, Nat.zero_add]

/-- The last cluster of the chain is filled up. -/
theorem Holds.filled (hbuild : Building g d cs st)
    (halign : Aligned g data append fileSize cs st)
    (hkept : kept.length = keptSize append fileSize) (hb : st.bytesWritten < data.length)
    (hinside : (keptSize append fileSize + st.bytesWritten) % g.clusterBytes ≠ 0)
    (hcurr : ¬ st.currCluster < 2)
    (hframe : ∀ l, ¬ g.InCluster st.currCluster l → d' l = d l)
    (hold : ∀ k < roundOffset g append fileSize st, byteAt d' (g.clusterLba st.currCluster) k =
      byteAt d (g.clusterLba st.currCluster) k)
    (hnew : ∀ i, st.bytesWritten + i < data.length → roundOffset g append fileSize st + i <
      g.clusterBytes → byteAt d' (g.clusterLba st.currCluster)
        (roundOffset g append fileSize st + i) = data.getD (st.bytesWritten + i) 0)
    (h : Holds g d cs (sofar kept data st)) :
    Holds g d' cs (sofar kept data (st.advanced g data append fileSize)) := by
  have hlen := length_sofar hkept hb.le
  have hoffset := halign.offset hb
  have hlt := roundOffset_lt g append fileSize st
  rw [← hlen] at hoffset hinside
  have hne : cs ≠ [] := fun hnil => hcurr (hbuild.curr_lt.2 hnil)
  obtain ⟨xs, c, rfl⟩ : ∃ xs c, cs = xs ++ [c] := ⟨_, _, (List.dropLast_append_getLast hne).symm⟩
  have hc : st.currCluster = c := by rw [hbuild.curr, List.getLastD_concat]
  rw [hc] at hframe hold hnew
  rw [sofar, take_advanced hb, ← List.append_assoc, ← sofar]
  have hmem := hbuild.owns.isCluster
  refine h.fill ?_ ?_ (fun a ha lba hlba => hframe lba ?_) (fun k hk => hold k (by omega))
    fun i hi => ?_
  · have hcount := halign.length
    rw [← hlen, clustersFor_inside_eq hinside, List.length_append, List.length_singleton] at hcount
    omega
  · have := List.length_take_le (g.clusterBytes - roundOffset g append fileSize st)
      (data.drop st.bytesWritten)
    omega
  · have hac : a ≠ c := by
      rintro rfl
      exact (List.nodup_append.1 hbuild.owns.nodup).2.2 a ha a (List.mem_singleton_self a) rfl
    exact not_inCluster (hmem a (List.mem_append_left _ ha)).1
      (hmem c (List.mem_append_right _ (List.mem_singleton_self c))).1 hac hlba
  · obtain ⟨hlt, hcb, hpart⟩ := getD_part hi
    rw [hpart, ← hoffset, hnew i hlt (by omega)]

/-- **One round.**  It writes its part of the data behind what the chain holds, unless no cluster
is free. -/
theorem writeRound_holds (hg : g.Valid) (kmalloc : Nat → Option (Nat → UInt8))
    (hbuild : Building g d cs st) (halign : Aligned g data append fileSize cs st)
    (hkept : kept.length = keptSize append fileSize) (hb : st.bytesWritten < data.length)
    (h : Holds g d cs (sofar kept data st)) :
    (∃ st' d' cs', (∀ n, (writeRound data append fileSize st).run g kmalloc (clean d) n =
        .ret (.inl st', clean d')) ∧ st.bytesWritten < st'.bytesWritten ∧ Building g d' cs' st' ∧
        Aligned g data append fileSize cs' st' ∧ cs <+: cs' ∧
        Holds g d' cs' (sofar kept data st')) ∨
      ∀ n, (writeRound data append fileSize st).run g kmalloc (clean d) n =
        .ret (.inr (.error (-enospc)), clean d) := by
  have hoffset := roundOffset_lt g append fileSize st
  have hmore := (filled_lt hoffset hb).1
  by_cases hboundary : roundOffset g append fileSize st = 0 ∨ st.currCluster < 2
  · have hzero := (hbuild.boundary_iff halign hb).1 hboundary
    rcases nextCluster_clean hg kmalloc hboundary d with ⟨c, hc, hnext⟩ | ⟨-, hnext⟩
    · obtain ⟨d', hfill, hframe⟩ := fillCluster_clean kmalloc (st.extended c) hoffset hb.le
        (linked g d st.prevCluster c)
      obtain ⟨-, hbuild'⟩ := hbuild.extended data append fileSize hg hc hframe
      have hle : (st.extended c).bytesWritten ≤ data.length := hb.le
      obtain ⟨-, hnew⟩ := fillCluster_bytes hoffset hle (hfill 0)
      refine Or.inl ⟨_, d', cs ++ [c], fun n => (writeRound_next hb (hnext n)).trans (hfill n),
        hmore, hbuild', halign.advanced hb rfl ?_, List.prefix_append _ _, ?_⟩
      · rw [if_pos hzero, List.length_append, List.length_singleton]
      · exact h.extended hg hbuild halign hkept hb hzero hc hframe hnew
    · exact Or.inr fun n => writeRound_next hb (hnext n)
  · have hinside := (hbuild.boundary_iff halign hb).not.1 hboundary
    have hcurr : ¬ st.currCluster < 2 := fun hlow => hboundary (Or.inr hlow)
    have hnext : ∀ n, (nextCluster (roundOffset g append fileSize st) st).run g kmalloc (clean d)
        n = .ret (some st, clean d) := fun n => by
      rw [show nextCluster (roundOffset g append fileSize st) st = pure (some st)
        from if_neg hboundary]
      rfl
    obtain ⟨d', hfill, hframe⟩ := fillCluster_clean kmalloc st hoffset hb.le d
    obtain ⟨-, hbuild'⟩ := hbuild.filled data append fileSize hg hcurr hframe
    obtain ⟨hold, hnew⟩ := fillCluster_bytes hoffset hb.le (hfill 0)
    refine Or.inl ⟨_, d', cs, fun n => (writeRound_next hb (hnext n)).trans (hfill n), hmore,
      hbuild', halign.advanced hb rfl ?_, List.prefix_rfl, ?_⟩
    · rw [if_neg hinside, Nat.add_zero]
    · exact h.filled hbuild halign hkept hb hinside hcurr hframe hold hnew

/-- **The write loop.**  The loop leaves a longer chain that holds what it held and the data that
has been written, and all of the data when it succeeds. -/
theorem writeLoop_holds (hg : g.Valid) (hkept : kept.length = keptSize append fileSize) :
    ∀ (st : WriteState) (d : Disk) (cs : List Nat) {r : Except Int Nat} {io : Io},
      Building g d cs st → Aligned g data append fileSize cs st →
      Holds g d cs (sofar kept data st) →
      Yields ((Fs.loop (writeRound data append fileSize) st).run g kmalloc (clean d))
        (r, io) →
      ∃ d' cs' st', io = clean d' ∧ cs <+: cs' ∧ Building g d' cs' st' ∧
        Holds g d' cs' (sofar kept data st') ∧
        ∀ first, r = .ok first → st'.firstCluster = first ∧ data.length ≤ st'.bytesWritten := by
  intro st
  induction hk : data.length - st.bytesWritten using Nat.strong_induction_on generalizing st with
  | _ k ih =>
      intro d cs r io hbuild halign h hrun
      by_cases hb : st.bytesWritten < data.length
      · rcases writeRound_holds hg kmalloc hbuild halign hkept hb h with
          ⟨st', d₁, cs₁, hround, hmore, hbuild₁, halign₁, hextends, h₁⟩ | hround
        · obtain ⟨d', cs', st₂, hio, hextends', hrest⟩ := ih _ (by omega) st' rfl d₁ cs₁ hbuild₁
            halign₁ h₁ ((yields_writeLoop_next hround).1 hrun)
          exact ⟨d', cs', st₂, hio, hextends.trans hextends', hrest⟩
        · obtain ⟨rfl, rfl⟩ := Prod.mk.inj ((yields_writeLoop_last hround).1 hrun)
          exact ⟨d, cs, st, rfl, List.prefix_rfl, hbuild, h, fun first hok => by simp at hok⟩
      · obtain ⟨rfl, rfl⟩ := Prod.mk.inj ((yields_writeLoop_last (writeRound_done hb)).1 hrun)
        exact ⟨d, cs, st, rfl, List.prefix_rfl, hbuild, h,
          fun first hok => ⟨Except.ok.inj hok, Nat.le_of_not_lt hb⟩⟩

end Rounds

/-! ## Files -/

section Files

variable {r : Record} {cs : List Nat} {bytes : List UInt8}

/-- The bytes of the file that an entry names. -/
def fileBytes (g : Geometry) (d : Disk) (r : Record) : List UInt8 :=
  (List.range r.fileSize).map (chainByte g d r.startingCluster)

@[simp] theorem length_fileBytes : (fileBytes g d r).length = r.fileSize := by simp [fileBytes]

theorem getD_fileBytes {k : Nat} (hk : k < r.fileSize) :
    (fileBytes g d r).getD k 0 = chainByte g d r.startingCluster k := by
  rw [List.getD_eq_getElem _ _ (by simpa using hk)]
  simp [fileBytes]

/-- The clusters of a chain are reached from its first one. -/
theorem Owns.getElem? {start i : Nat} (h : Owns g d start cs) (hi : i < cs.length) :
    cs[i]? = some ((fat g d)^[i] start) := by
  rcases h.chain with ⟨rfl, -⟩ | ⟨-, hchain⟩
  · exact absurd hi (Nat.not_lt_zero i)
  · obtain ⟨hcs, -⟩ := hchain.eq_iterate
    rw [hcs, List.getElem?_iterate _ _ _ _ hi]

theorem div_lt_clustersFor {n k : Nat} (hk : k < n) : k / g.clusterBytes < g.clustersFor n := by
  have hpos := g.clusterBytes_pos
  have hle := Geometry.bytes_le_of_clustersFor (Nat.le_refl (g.clustersFor n))
  exact (Nat.div_lt_iff_lt_mul hpos).2 (by omega)

/-- The chain of a file holds its bytes. -/
theorem holds_fileBytes (h : Owns g d r.startingCluster cs)
    (hlen : cs.length = g.clustersFor r.fileSize) : Holds g d cs (fileBytes g d r) := by
  intro k hk
  rw [length_fileBytes] at hk
  refine ⟨_, h.getElem? (by rw [hlen]; exact div_lt_clustersFor hk), ?_⟩
  rw [getD_fileBytes hk]
  rfl

/-- The bytes of a file are what its chain holds. -/
theorem Holds.fileBytes_eq (h : Holds g d cs bytes) (howns : Owns g d r.startingCluster cs)
    (hsize : r.fileSize = bytes.length) : fileBytes g d r = bytes := by
  refine List.ext_getElem (by rw [length_fileBytes, hsize]) fun k hk hk' => ?_
  obtain ⟨c, hc, hbyte⟩ := h k hk'
  rw [howns.getElem? (List.getElem?_eq_some_iff.1 hc).1] at hc
  obtain rfl := Option.some.inj hc
  rw [List.getD_eq_getElem _ _ hk'] at hbyte
  rw [← hbyte]
  simp [fileBytes, chainByte]

/-- A file keeps its bytes when neither the FAT entries nor the sectors of its chain change. -/
theorem fileBytes_congr (h : Owns g d r.startingCluster cs)
    (hlen : cs.length = g.clustersFor r.fileSize) (hfat : ∀ c ∈ cs, fat g d' c = fat g d c)
    (hsame : ∀ c ∈ cs, ∀ lba, g.InCluster c lba → d' lba = d lba) :
    fileBytes g d' r = fileBytes g d r :=
  ((holds_fileBytes h hlen).congr hsame).fileBytes_eq (h.congr hfat) length_fileBytes.symm

end Files

/-! ## One entry written -/

section Entry

variable {data bytes : List UInt8} {append : Bool} {D : Nat} {v : Visit} {cs : List Nat}

/-- The bytes in front of those that are written. -/
def keptBytes (append : Bool) (old : List UInt8) : List UInt8 := if append then old else []

theorem length_keptBytes (append : Bool) (old : List UInt8) :
    (keptBytes append old).length = keptSize append old.length := by
  cases append with
  | true => rfl
  | false => rfl

/-- The entry `v` with the chain `cs` has got a chain that holds the bytes. -/
def Stores (g : Geometry) (d d' : Disk) (D : Nat) (v : Visit) (cs : List Nat)
    (bytes : List UInt8) : Prop :=
  ∃ d₁ first ncs, Rewritten g d d₁ cs ncs first ∧ Holds g d₁ ncs bytes ∧
    ncs.length = g.clustersFor bytes.length ∧ bytes.length < 2 ^ 32 ∧
    d' = putRecord d₁ (dirBase g D) v.pos (v.entry.withChain first bytes.length)

/-- What the chain holds when the write loop begins. -/
theorem holds_start {st : WriteState} (h : Holds g d cs (fileBytes g d v.entry))
    (hst : st.bytesWritten = 0) : Holds g (keptDisk g d append cs) (keptChain append cs)
      (sofar (keptBytes append (fileBytes g d v.entry)) data st) := by
  rw [sofar, hst, List.take_zero, List.append_nil]
  cases append with
  | true => exact h
  | false => exact holds_nil

/-- A write that succeeds is one to a file. -/
theorem Succeeds.isFile {base : Nat}
    (h : Succeeds (writeEntry (v.found base) data append) g kmalloc d d') :
    v.entry.isDirectory = false := by
  by_contra hdir
  have hdir : v.entry.isDirectory = true := by simpa using hdir
  have hrefused : writeEntry (v.found base) data append = pure (-eisdir) := if_pos hdir
  rw [hrefused] at h
  obtain ⟨n, h⟩ := h
  exact absurd (Prod.mk.inj (Exec.ret.inj h)).1 (by decide)

/-- **The entry.**  A write that succeeds leaves a file with what it has kept and the data. -/
theorem writeEntry_stores (hg : g.Valid) (hfits : g.Fits)
    (hcs : Owns g d v.entry.startingCluster cs)
    (hlen : cs.length = g.clustersFor v.entry.fileSize)
    (h : Succeeds (writeEntry (v.found (dirBase g D)) data append) g kmalloc d d') :
    Stores g d d' D v cs (keptBytes append (fileBytes g d v.entry) ++ data) := by
  have hfile := h.isFile
  have hkept : (keptBytes append (fileBytes g d v.entry)).length =
      keptSize append v.entry.fileSize := by rw [length_keptBytes, length_fileBytes]
  have hold := holds_fileBytes hcs hlen
  by_cases hempty : append = false ∧ data.length = 0
  · obtain ⟨rfl, hnil⟩ := hempty
    obtain rfl : data = [] := List.eq_nil_of_length_eq_zero hnil
    obtain ⟨n, h⟩ := h
    have hfree : Fs.when (2 ≤ v.entry.startingCluster) (freeChain v.entry.startingCluster)
        ⟨g, n, kmalloc⟩ (clean d) = .ret ((), clean (clearAll g d cs)) :=
      when_freeChain_clean hg hcs
    have hrun : (writeEntry (v.found (dirBase g D)) [] false).run g kmalloc (clean d) n =
        .ret (eok, clean (putRecord (clearAll g d cs) (dirBase g D) v.pos
          (v.entry.withChain 0 0))) := by
      rw [writeEntry_truncate hfile, Fs.run, Fs.bind_apply]
      exact (congrArg (· >>= _) hfree).trans rfl
    have hgrows : Grows g (keptDisk g d false cs) (clearAll g d cs) (keptChain false cs) [] :=
      .refl fun c hc => absurd hc List.not_mem_nil
    refine ⟨_, 0, [], hgrows.rewritten hg hcs owns_nil, holds_nil, g.clustersFor_zero.symm,
      (by decide : 0 < 2 ^ 32), ?_⟩
    exact congrArg Io.disk (Prod.mk.inj (Exec.ret.inj (h.symm.trans hrun))).2
  · have hregular : ∀ st, (writeTail (v.found (dirBase g D)) data append st).Regular :=
      regular_writeTail (v.found (dirBase g D)) data append
    rw [writeEntry_write hfile hempty, Succeeds,
      yields_bind (regular_prepareWrite _ _) hregular] at h
    obtain ⟨⟨st, io⟩, hst, h⟩ := h
    obtain ⟨hio, hbytes, hbuild⟩ := prepareWrite_building hg hcs hst
    obtain rfl : io = clean _ := hio
    obtain ⟨⟨res, io⟩, hres, n, h⟩ := (yields_bind (regular_writeLoop _ _ _ _)
      (regular_finishWrite (v.found (dirBase g D)) data append)).1 h
    have halign : Aligned g data append v.entry.fileSize (keptChain append cs) st :=
      aligned_start hbytes hlen
    obtain ⟨d₁, ncs, first, hio, hgrows, howns, hresult⟩ :=
      writeLoop_grows hg st _ _ hbuild halign hres
    obtain rfl : io = clean d₁ := hio
    rcases hresult with ⟨hfirst, hlength⟩ | ⟨hfull, -⟩
    · obtain rfl : res = .ok first := hfirst
      have hstart : Holds g (keptDisk g d append cs) (keptChain append cs)
          (sofar (keptBytes append (fileBytes g d v.entry)) data st) := holds_start hold hbytes
      obtain ⟨d₂, ncs₂, st₂, hio, -, hbuild₂, hholds, hdone⟩ :=
        writeLoop_holds hg hkept st _ _ hbuild halign hstart hres
      obtain rfl : d₁ = d₂ := congrArg Io.disk hio
      obtain ⟨hfirst₂, hwhole⟩ := hdone first rfl
      have howns₂ : Owns g d₁ first ncs₂ := hfirst₂ ▸ hbuild₂.owns
      rw [sofar, List.take_of_length_le hwhole] at hholds
      obtain rfl := howns.unique howns₂
      have hall : (keptBytes append (fileBytes g d v.entry) ++ data).length =
          keptSize append v.entry.fileSize + data.length := by rw [List.length_append, hkept]
      have hlt : keptSize append v.entry.fileSize + data.length < 2 ^ 32 := by
        have hle := length_le_totalClusters howns.nodup howns.isCluster
        rw [hlength] at hle
        exact (Geometry.bytes_le_of_clustersFor hle).trans_lt hfits
      have hsize : newSize append v.entry.fileSize data =
          keptSize append v.entry.fileSize + data.length := by
        unfold newSize keptSize wrap32 at *
        cases append with
        | true => exact Nat.mod_eq_of_lt hlt
        | false => exact (Nat.zero_add _).symm
      refine ⟨d₁, first, ncs, hgrows.rewritten hg hcs howns, hholds, by rw [hall, hlength],
        by rw [hall]; exact hlt, ?_⟩
      rw [hall, ← hsize]
      exact congrArg Io.disk (Prod.mk.inj (Exec.ret.inj h)).2.symm
    · obtain rfl : res = .error (-enospc) := hfull
      have hcode : (-enospc : Int) = eok := (Prod.mk.inj (Exec.ret.inj h)).1
      exact absurd hcode (by decide)

/-- The start of a longer chain. -/
theorem Owns.start_of_longer {start start' : Nat} {cs' : List Nat} (h : Owns g d start cs)
    (h' : Owns g d' start' cs') (hextends : cs <+: cs') (hne : cs ≠ []) : start' = start := by
  obtain ⟨ts, rfl⟩ := hextends
  cases cs with
  | nil => exact absurd rfl hne
  | cons c cs =>
      have hstart := (h.chain.resolve_left fun hnil => List.cons_ne_nil _ _ hnil.1).2.1
      have hstart' := (h'.chain.resolve_left fun hnil => List.cons_ne_nil _ _ hnil.1).2.1
      exact hstart'.trans hstart.symm

/-- Bytes that are appended to a full disk do not touch those that are there. -/
theorem append_keeps (hg : g.Valid) (hfile : v.entry.isDirectory = false)
    (hcs : Owns g d v.entry.startingCluster cs)
    (hlen : cs.length = g.clustersFor v.entry.fileSize) {base : Nat}
    (h : Yields ((writeEntry (v.found base) data true).run g kmalloc (clean d))
      (-enospc, clean d')) : fileBytes g d' v.entry = fileBytes g d v.entry := by
  by_cases hnil : cs = []
  · have hle := Geometry.bytes_le_of_clustersFor (Nat.le_refl (g.clustersFor v.entry.fileSize))
    rw [← hlen, hnil, List.length_nil, Nat.zero_mul] at hle
    rw [fileBytes, fileBytes, Nat.le_zero.1 hle]
    rfl
  · have hempty : ¬ (true = false ∧ data.length = 0) := by simp
    have hregular : ∀ st, (writeTail (v.found base) data true st).Regular :=
      regular_writeTail (v.found base) data true
    rw [writeEntry_write hfile hempty, yields_bind (regular_prepareWrite _ _) hregular] at h
    obtain ⟨⟨st, io⟩, hst, h⟩ := h
    obtain ⟨hio, hbytes, hbuild⟩ := prepareWrite_building hg hcs hst
    obtain rfl : io = clean _ := hio
    obtain ⟨⟨res, io⟩, hres, n, h⟩ := (yields_bind (regular_writeLoop _ _ _ _)
      (regular_finishWrite (v.found base) data true)).1 h
    have halign : Aligned g data true v.entry.fileSize (keptChain true cs) st :=
      aligned_start hbytes hlen
    have hkept : (keptBytes true (fileBytes g d v.entry)).length =
        keptSize true v.entry.fileSize := by rw [length_keptBytes, length_fileBytes]
    obtain ⟨d₁, ncs, st₁, rfl, hextends, hbuild₁, hholds, -⟩ := writeLoop_holds hg hkept st _ _
      hbuild halign (holds_start (holds_fileBytes hcs hlen) hbytes) hres
    cases res with
    | ok first =>
        have hcode : eok = (-enospc : Int) := (Prod.mk.inj (Exec.ret.inj h)).1
        exact absurd hcode (by decide)
    | error e =>
        obtain rfl : d₁ = d' := congrArg Io.disk (Prod.mk.inj (Exec.ret.inj h)).2
        have hold : Holds g d₁ ncs (fileBytes g d v.entry) := hholds.of_append
        have howns : Owns g d₁ v.entry.startingCluster ncs :=
          hcs.start_of_longer hbuild₁.owns hextends hnil ▸ hbuild₁.owns
        exact hold.fileBytes_eq howns length_fileBytes.symm

end Entry

/-! ## Loading -/

section Load

variable {path : List UInt8} {D : Nat} {name : Name} {v : Visit} {b : Nat → UInt8} {n : Nat}
  {io : Io}

/-- A lookup on a sound volume shows what the scan shows. -/
theorem Sound.lookup_of_looks (hg : g.Valid) (h : Sound g d) (hD : IsDir g d D)
    {found : Option Found} (hlooks : Looks g d D name found) :
    (lookup g d D name).map (Visit.found (dirBase g D)) = found :=
  (h.looks hg hD name).unique hlooks

/-- The chain of a live file covers its size. -/
theorem Sound.covers (hg : g.Valid) (h : Sound g d) (hv : LiveEntry g d D v)
    (hfile : v.entry.isDirectory = false) : ChainCovers g d v.entry := by
  obtain ⟨cs, hcs, hlen⟩ := h.chain D v hv
  have hlen : cs.length = g.clustersFor v.entry.fileSize := hlen.trans (if_neg (by simp [hfile]))
  intro i hi
  have hpos := g.clusterBytes_pos
  have hmem := div_lt_clustersFor (g := g) hi
  rw [Nat.mul_div_cancel _ hpos, ← hlen] at hmem
  have hc := hcs.isCluster _ (List.mem_of_getElem? (hcs.getElem? hmem))
  have := IsCluster.lt_reserved hg hc
  exact ⟨hc, by omega⟩

/-- What is loaded is what is in the file. -/
theorem FileData.slice_eq {kmalloc : Nat → Option (Nat → UInt8)} {r : Record}
    (h : FileData g kmalloc d r b) : slice b 0 r.fileSize = fileBytes g d r := by
  obtain ⟨cs, -, hcs, -, hbytes⟩ := h
  refine List.map_congr_left fun k hk => ?_
  obtain ⟨c, hc, hbyte⟩ := hbytes k (List.mem_range.1 hk)
  have hlt := (List.getElem?_eq_some_iff.1 hc).1
  rw [hcs, List.getElem?_iterate _ _ _ _ hlt] at hc
  obtain rfl := Option.some.inj hc
  rw [Nat.zero_add, hbyte, chainByte]

/-- **Loading.**  A load that returns something returns the bytes of the file its path names. -/
theorem loadFile_reads (hg : g.Valid) (h : Sound g d)
    (hrun : Yields ((loadFile path).run g kmalloc (clean d)) (some (b, n), io)) :
    ∃ D name v, LeadsTo g d path D name ∧ lookup g d D name = some v ∧
      v.entry.isDirectory = false ∧ slice b 0 n = fileBytes g d v.entry := by
  obtain ⟨found, ⟨D, name, found', hlead, hlooks, hentry⟩, hload⟩ := yields_loadFile hrun
  have hD := (hlead.isDir hg h).1
  have hsame := h.lookup_of_looks hg hD hlooks
  cases hl : lookup g d D name with
  | none => simp [hl] at hsame
  | some v =>
      rw [hl] at hsame
      obtain rfl := Option.some.inj hsame
      have hv : v.entry = found.entry := hentry
      have hfile : v.entry.isDirectory = false := by
        by_contra hdir
        have hnone : loadFound (some found) = pure none := by
          have hdir' : found.entry.isDirectory = true := by
            rw [← hv]
            simpa using hdir
          exact if_pos hdir'
        rw [hnone] at hload
        obtain ⟨_, hload⟩ := hload
        exact absurd (Prod.mk.inj (Exec.ret.inj hload)).1 (by simp)
      obtain ⟨rfl, m, hloads, hthrough⟩ := yields_loadFound hload
      have hcovers := h.covers hg (h.live_file hD (lookup_mem hl).1 hfile) hfile
      rw [hv] at hcovers
      refine ⟨D, name, v, hlead, hl, hfile, ?_⟩
      rw [hv]
      exact (hcovers.fileData hloads hthrough).slice_eq

/-- A file that can be found is loaded when there is memory for it. -/
theorem loadFile_returns (hg : g.Valid) (h : Sound g d) (hlead : LeadsTo g d path D name)
    (hl : lookup g d D name = some v) (hfile : v.entry.isDirectory = false)
    (hmemory : ∀ n, (kmalloc n).isSome) :
    ∃ b io, Yields ((loadFile path).run g kmalloc (clean d)) (some (b, v.entry.fileSize), io) := by
  have hlooks := h.looks hg (hlead.isDir hg h).1 name
  rw [hl] at hlooks
  suffices hload : ∃ b io, Yields
      ((loadFound (some (v.found (dirBase g D)))).run g kmalloc (clean d))
      (some (b, v.entry.fileSize), io) by
    obtain ⟨b, io, hload⟩ := hload
    exact ⟨b, io, onEntry_yields (fun _ _ => regular_loadFound) hlead hlooks hload⟩
  by_cases hempty : v.entry.fileSize = 0
  · obtain ⟨buffer, hbuffer⟩ := Option.isSome_iff_exists.1 (hmemory 1)
    refine ⟨setByte buffer 0 0, clean d, 0, ?_⟩
    simp [loadFound, Visit.found, hfile, hempty, Fs.run, Fs.bind_apply, hbuffer]
  · obtain ⟨buffer, hbuffer⟩ := Option.isSome_iff_exists.1 (hmemory v.entry.fileSize)
    obtain ⟨m, b, hvisits, -⟩ := loadLoop_visits (g := g) (d := d) kmalloc
      ⟨v.entry.startingCluster, v.entry.fileSize, 0, buffer⟩
    obtain ⟨fuel, hloop⟩ := hvisits.yields fun st => (total_loadCluster st).regular
    refine ⟨b, clean d, fuel, ?_⟩
    rw [Fs.run] at hloop
    simp [loadFound, Visit.found, hfile, hempty, Fs.run, Fs.bind_apply, hbuffer, hloop]

end Load

end Fat16

end BenmoshOS
