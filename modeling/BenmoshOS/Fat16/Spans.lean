import BenmoshOS.Fat16.Places
import BenmoshOS.Fat16.ChainWalks

/-!
# FAT16: insertion into a directory of several clusters

The slot search of `fat16_insert_entry` follows the cluster chain of the directory, the write loop
goes on with the next sector number.

* `slotSearch_places` — the search ends at the place of the first run of free slots.
* `putRecords_changes`, `recordOf_putRecords` — what the write loop writes, byte for byte.
* `insert_inside_iff` — the new entry lies in the directory exactly when the sectors of that run
  are adjacent on the disk.
-/

namespace BenmoshOS

namespace Fat16

open Exec (Yields Halts)
open Fs

variable {g : Geometry} {d : Disk} {D : Nat} {cs : List Nat}

/-! ## The order of the places -/

section Order

variable {lbas : List Nat}

/-- The slot at position `m` lies in sector number `m / 16` of the directory. -/
theorem getElem?_placesOf (lbas : List Nat) (m : Nat) :
    (placesOf lbas)[m]? = lbas[m / 16]?.map fun lba => (lba, m % 16) := by
  induction lbas generalizing m with
  | nil => rfl
  | cons lba lbas ih =>
      have hcons : placesOf (lba :: lbas) = (List.range 16).map (fun i => (lba, i)) ++ placesOf lbas :=
        List.flatMap_cons
      rw [hcons]
      by_cases hm : m < 16
      · rw [List.getElem?_append_left (by simpa using hm), List.getElem?_map,
          List.getElem?_range hm, Nat.div_eq_of_lt hm, Nat.mod_eq_of_lt hm]
        rfl
      · obtain ⟨j, rfl⟩ : ∃ j, m = j + 16 := ⟨m - 16, by omega⟩
        rw [List.getElem?_append_right (by simp), List.length_map, List.length_range,
          Nat.add_sub_cancel, ih, Nat.add_div_right j (by decide), Nat.add_mod_right,
          List.getElem?_cons_succ]

theorem slot_lt {j sec slot : Nat} (h : (placesOf lbas)[j]? = some (sec, slot)) : slot < 16 := by
  rw [getElem?_placesOf, Option.map_eq_some_iff] at h
  obtain ⟨lba, -, heq⟩ := h
  rw [← (Prod.mk.inj heq).2]
  exact Nat.mod_lt _ (by decide)

theorem nodup_dirLbas (h : DirClusters g d D cs) : (dirLbas g D cs).Nodup := by
  unfold dirLbas
  rcases h with ⟨rfl, -⟩ | ⟨hD, hchain⟩
  · rw [if_pos rfl]
    exact List.nodup_range'
  · rw [if_neg hD]
    have hlive : ∀ c ∈ cs, 2 ≤ c := fun c hc => (not_not.1 (hchain.not_stop c hc)).1
    refine List.nodup_flatMap.2 ⟨fun _ _ => List.nodup_range', ?_⟩
    refine hchain.nodup.imp_of_mem fun {c c'} hc hc' hne lba hlba hlba' => hne ?_
    obtain ⟨s, hs, rfl⟩ := List.mem_range'.1 hlba
    obtain ⟨s', hs', heq⟩ := List.mem_range'.1 hlba'
    exact clusterLba_inj (hlive c hc) (hlive c' hc') hs hs' (by omega)

theorem nodup_dirPlaces (h : DirClusters g d D cs) : (dirPlaces g D cs).Nodup := by
  refine List.nodup_flatMap.2 ⟨fun lba _ => ?_, ?_⟩
  · exact (List.nodup_range).map fun i j hij => (Prod.mk.inj hij).2
  · refine (nodup_dirLbas h).imp fun {a b} hne p hp hp' => hne ?_
    obtain ⟨i, -, rfl⟩ := List.mem_map.1 hp
    obtain ⟨j, -, heq⟩ := List.mem_map.1 hp'
    exact (Prod.mk.inj heq).1.symm

end Order

/-! ## The slot search -/

section Search

variable {n : Nat}

/-- The state of a search at places and that of the search at positions. -/
structure SearchSim (ps : List (Nat × Nat)) (ctx ctx' : SlotCtx) : Prop where
  consecutiveFound : ctx.consecutiveFound = ctx'.consecutiveFound
  done : ctx.done = ctx'.done
  place : ctx.consecutiveFound ≠ 0 ∨ ctx.done = true →
    ps[16 * ctx'.startSector + ctx'.startSlot]? = some (ctx.startSector, ctx.startSlot)

theorem slotSearchCallback_sim {ps : List (Nat × Nat)} {p : Nat × Nat} {j : Nat} {ctx ctx' : SlotCtx}
    (hp : ps[j]? = some p) (h : SearchSim ps ctx ctx') :
    (slotSearchCallback n p.1 p.2 (recordOf d p) ctx).1 =
      (slotSearchCallback n (0 + j / 16) (j % 16) (recordOf d p) ctx').1 ∧
    SearchSim ps (slotSearchCallback n p.1 p.2 (recordOf d p) ctx).2
      (slotSearchCallback n (0 + j / 16) (j % 16) (recordOf d p) ctx').2 := by
  obtain ⟨k, sec, slot, done⟩ := ctx
  obtain ⟨k', sec', slot', done'⟩ := ctx'
  obtain rfl : k = k' := h.consecutiveFound
  obtain rfl : done = done' := h.done
  have hplace : k ≠ 0 ∨ done = true → ps[16 * sec' + slot']? = some (sec, slot) := h.place
  have hnew : ps[16 * (0 + j / 16) + j % 16]? = some p := by
    rw [Nat.zero_add, Nat.div_add_mod]
    exact hp
  unfold slotSearchCallback
  by_cases hfree : recordOf d p 0 = 0x00 ∨ recordOf d p 0 = 0xE5
  · rw [if_pos hfree, if_pos hfree]
    by_cases hk : k = 0
    · subst hk
      by_cases hn : 0 + 1 = n
      · simp only [if_true, hn]
        exact ⟨trivial, rfl, rfl, fun _ => hnew⟩
      · simp only [if_true, if_neg hn]
        exact ⟨trivial, rfl, rfl, fun _ => hnew⟩
    · by_cases hn : k + 1 = n
      · simp only [if_neg hk, if_pos hn]
        exact ⟨trivial, rfl, rfl, fun _ => hplace (Or.inl hk)⟩
      · simp only [if_neg hk, if_neg hn]
        exact ⟨trivial, rfl, rfl, fun _ => hplace (Or.inl hk)⟩
  · rw [if_neg hfree, if_neg hfree]
    refine ⟨rfl, rfl, rfl, fun h => ?_⟩
    rcases h with hne | hdone
    · exact absurd rfl hne
    · exact hplace (Or.inr hdone)

/-- What the search for `n` free slots in a row ends with. -/
inductive SearchEnds (g : Geometry) (d : Disk) (D : Nat) (cs : List Nat) (n : Nat) (ctx : SlotCtx) :
    Prop
  | full (hdone : ctx.done = false) (hroom : ¬ HasRoom (dirRecords g d D cs) n)
  | found {j : Nat} (hdone : ctx.done = true) (hwindow : Window (dirRecords g d D cs) j n)
      (hstart : (dirPlaces g D cs)[j]? = some (ctx.startSector, ctx.startSlot))

/-- **Slot search.**  The search ends at the place of the first run of free slots. -/
theorem slotSearch_places (hD : DirClusters g d D cs) (hn : 0 < n) {r : Int × SlotCtx}
    (h : Iterates g d (slotSearchCallback n) D SlotCtx.zero r) :
    SearchEnds g d D cs n r.2 := by
  obtain rfl := (iterates_places hD).1 h
  have hzero : SearchSim (dirPlaces g D cs) SlotCtx.zero SlotCtx.zero :=
    ⟨rfl, rfl, fun h => h.elim (fun hne => absurd rfl hne) fun hdone => absurd hdone (by decide)⟩
  obtain ⟨-, -, hsim⟩ : _ ∧ ∃ _ : Nat, SearchSim (dirPlaces g D cs)
      (visitPlaces (slotSearchCallback n) d (dirPlaces g D cs) SlotCtx.zero).2
      (visitList (slotSearchCallback n) 0 ((dirPlaces g D cs).map (recordOf d)) 0 SlotCtx.zero).2 :=
    visitPlaces_sim (R := fun _ => SearchSim (dirPlaces g D cs))
      (fun j p ctx ctx' hp hR => slotSearchCallback_sim hp hR) _ 0 _ _ rfl hzero
  rcases slotSearch_spec (dirRecords g d D cs) 0 hn with ⟨hdone, hroom⟩ | ⟨j, hdone⟩
  · exact .full (hsim.done.trans hdone) hroom
  · have htrue := hsim.done.trans hdone.done
    have hplace := hsim.place (Or.inr htrue)
    rw [show ((dirPlaces g D cs).map (recordOf d)) = dirRecords g d D cs from rfl,
      hdone.startSector, hdone.startSlot, Nat.zero_add, Nat.div_add_mod] at hplace
    exact .found htrue hdone.window hplace

end Search

/-! ## The write loop -/

section Stream

/-- The places the write loop goes through from slot `slot` of sector `sec` on. -/
def streamPlaces (sec slot n : Nat) : List (Nat × Nat) :=
  (List.range' slot n).map fun q => (sec + q / 16, q % 16)

/-- Byte `k` of sector `lba` belongs to the slot at the place `p`. -/
def AtPlace (p : Nat × Nat) (lba k : Nat) : Prop :=
  lba = p.1 ∧ 32 * p.2 ≤ k ∧ k < 32 * p.2 + 32

theorem putRecord_of_not_at {d : Disk} {base p lba k : Nat} {r : Record}
    (h : ¬ AtPlace (base + p / 16, p % 16) lba k) : putRecord d base p r lba k = d lba k := by
  unfold putRecord
  by_cases hlba : lba = base + p / 16
  · subst hlba
    rw [Disk.set_self, setRecord, if_neg fun hk => h ⟨rfl, hk⟩]
  · rw [Disk.set_of_ne hlba]

/-- The write loop changes only bytes of the slots it goes through. -/
theorem putRecords_changes {base : Nat} {ns : List Record} : ∀ {p : Nat} {d : Disk} {lba k : Nat},
    putRecords d base p ns lba k ≠ d lba k →
    ∃ q ∈ streamPlaces base p ns.length, AtPlace q lba k := by
  induction ns with
  | nil => exact fun h => absurd rfl h
  | cons r ns ih =>
      intro p d lba k h
      by_cases hat : AtPlace (base + p / 16, p % 16) lba k
      · exact ⟨_, List.mem_cons_self .., hat⟩
      · rw [← putRecord_of_not_at (r := r) (d := d) hat] at h
        obtain ⟨q, hq, hlba⟩ := ih h
        exact ⟨q, List.mem_cons_of_mem _ hq, hlba⟩

theorem recordOf_putRecords (d : Disk) (base p : Nat) {ns : List Record}
    (hns : ∀ r ∈ ns, r.Clipped) :
    (streamPlaces base p ns.length).map (recordOf (putRecords d base p ns)) = ns := by
  rw [streamPlaces, List.map_map]
  exact slots_putRecords_self d base p hns

end Stream

/-! ## Adjacent sectors -/

section Adjacent

variable {lbas : List Nat}

/-- Sectors number `q` to `q'` of a directory are adjacent on the disk. -/
def Adjacent (lbas : List Nat) (q q' : Nat) : Prop :=
  ∀ k, q ≤ k → k < q' → ∀ lba, lbas[k]? = some lba → lbas[k + 1]? = some (lba + 1)

theorem adjacent_iff {q s : Nat} (h : lbas[q]? = some s) (e : Nat) :
    Adjacent lbas q (q + e) ↔ ∀ i, i ≤ e → lbas[q + i]? = some (s + i) := by
  constructor
  · intro hadj i hi
    induction i with
    | zero => exact h
    | succ i ih => exact hadj (q + i) (by omega) (by omega) (s + i) (ih (by omega))
  · intro hall k hk hk' lba hlba
    obtain ⟨i, rfl⟩ := Nat.exists_eq_add_of_le hk
    have hat := hall i (by omega)
    rw [hlba] at hat
    rw [Option.some.inj hat]
    exact hall (i + 1) (by omega)

/-- A list is a block of a list without repetitions exactly when its members follow the position
of its head. -/
theorem infix_iff_getElem? {α : Type} {ps qs : List α} (hqs : qs.Nodup) {j : Nat}
    (hps : 0 < ps.length) (hhead : qs[j]? = ps[0]?) :
    ps <:+: qs ↔ ∀ i, i < ps.length → qs[j + i]? = ps[i]? := by
  constructor
  · rintro ⟨xs, ys, rfl⟩ i hi
    have hat : ∀ i, i < ps.length → (xs ++ ps ++ ys)[xs.length + i]? = ps[i]? := by
      intro i hi
      rw [List.append_assoc, List.getElem?_append_right (Nat.le_add_right ..),
        Nat.add_sub_cancel_left, List.getElem?_append_left hi]
    have hj : j = xs.length := by
      have hlt : xs.length < (xs ++ ps ++ ys).length := by
        rw [List.length_append, List.length_append]
        omega
      exact ((List.getElem?_inj hlt hqs).1 ((hat 0 hps).trans hhead.symm)).symm
    rw [hj]
    exact hat i hi
  · intro hall
    have htake : (qs.drop j).take ps.length = ps := by
      refine List.ext_getElem? fun i => ?_
      rw [List.getElem?_take]
      split
      · rename_i hi
        rw [List.getElem?_drop]
        exact hall i hi
      · rename_i hi
        exact (List.getElem?_eq_none (Nat.le_of_not_lt hi)).symm
    rw [← htake]
    exact (List.take_prefix _ _).isInfix.trans (List.drop_suffix _ _).isInfix

/-- The slots a write loop goes through are a block of the slots of a directory exactly when the
sectors of the block are adjacent. -/
theorem streamPlaces_infix_iff (hlbas : (placesOf lbas).Nodup) {j n sec slot : Nat} (hn : 0 < n)
    (h : (placesOf lbas)[j]? = some (sec, slot)) :
    streamPlaces sec slot n <:+: placesOf lbas ↔ Adjacent lbas (j / 16) ((j + n - 1) / 16) := by
  rw [getElem?_placesOf, Option.map_eq_some_iff] at h
  obtain ⟨s, hs, heq⟩ := h
  obtain ⟨rfl, rfl⟩ := Prod.mk.inj heq
  have hlen : (streamPlaces s (j % 16) n).length = n := by simp [streamPlaces]
  have hget : ∀ i, i < n → (streamPlaces s (j % 16) n)[i]? =
      some (s + (j % 16 + i) / 16, (j % 16 + i) % 16) := by
    intro i hi
    rw [streamPlaces, List.getElem?_map, List.getElem?_range' hi, Nat.one_mul]
    rfl
  have hhead : (placesOf lbas)[j]? = (streamPlaces s (j % 16) n)[0]? := by
    rw [getElem?_placesOf, hs, hget 0 hn]
    simp
  have hlast : (j + n - 1) / 16 = j / 16 + (j % 16 + n - 1) / 16 := by omega
  rw [infix_iff_getElem? hlbas (by omega) hhead, hlen, hlast, adjacent_iff hs]
  constructor
  · -- the first slot the block has in the sector
    intro hall e he
    have hat := hall (16 * e - j % 16) (by omega)
    rw [getElem?_placesOf, hget _ (by omega), Option.map_eq_some_iff] at hat
    obtain ⟨lba, hlba, heq⟩ := hat
    rcases Nat.eq_zero_or_pos e with rfl | hpos
    · exact hs
    · have hq : (j + (16 * e - j % 16)) / 16 = j / 16 + e := by omega
      have hsec : s + (j % 16 + (16 * e - j % 16)) / 16 = s + e := by omega
      rw [hq] at hlba
      rw [hlba, (Prod.mk.inj heq).1, hsec]
  · intro hall i hi
    have hq : (j + i) / 16 = j / 16 + (j % 16 + i) / 16 := by omega
    have hslot : (j + i) % 16 = (j % 16 + i) % 16 := by omega
    rw [getElem?_placesOf, hget i hi, hq, hall _ (by omega), hslot]
    rfl

end Adjacent

/-! ## Insertion -/

/-- An insertion that stays inside the directory: only free slots of it are changed, and the
records of the new entry are consecutive in the order of the iteration. -/
structure InsertsInside (g : Geometry) (d : Disk) (D : Nat) (cs : List Nat) (name : Name)
    (attributes : UInt8) (cluster size : Nat) (code : Int) (d' : Disk) : Prop where
  changed : ∀ lba k, d' lba k ≠ d lba k →
    ∃ p ∈ dirPlaces g D cs, (recordOf d p).IsFree ∧ AtPlace p lba k
  consecutive : code = eok → ∃ a r, FirstFree g d D name a ∧
    Iterates g d (slotSearchCallback (lfnCount name + 1)) D SlotCtx.zero r ∧
    streamPlaces r.2.startSector r.2.startSlot (lfnCount name + 1) <:+: dirPlaces g D cs ∧
    (streamPlaces r.2.startSector r.2.startSlot (lfnCount name + 1)).map (recordOf d') =
      newRecords name (generateShortName name a) attributes cluster size

/-- The first `n` free slots in a row lie in sectors that are adjacent on the disk. -/
def RunAdjacent (g : Geometry) (d : Disk) (D : Nat) (cs : List Nat) (n : Nat) : Prop :=
  ∀ j, Window (dirRecords g d D cs) j n → Adjacent (dirLbas g D cs) (j / 16) ((j + n - 1) / 16)

section Insert

variable {name : Name} {attributes : UInt8} {cluster size : Nat} {n : Nat}

/-- The slots of a window are free. -/
theorem Window.isFree {j sec slot : Nat} (hD : DirClusters g d D cs) (hn : 0 < n)
    (h : Window (dirRecords g d D cs) j n)
    (hstart : (dirPlaces g D cs)[j]? = some (sec, slot))
    (hinside : streamPlaces sec slot n <:+: dirPlaces g D cs) :
    ∀ p ∈ streamPlaces sec slot n, p ∈ dirPlaces g D cs ∧ (recordOf d p).IsFree := by
  intro p hp
  have hlen : (streamPlaces sec slot n).length = n := by simp [streamPlaces]
  have hslot := slot_lt hstart
  have hhead : (dirPlaces g D cs)[j]? = (streamPlaces sec slot n)[0]? := by
    rw [hstart, streamPlaces, List.getElem?_map, List.getElem?_range' hn]
    simp only [Option.map_some, Nat.mul_zero, Nat.add_zero, Nat.div_eq_of_lt hslot,
      Nat.mod_eq_of_lt hslot]
  obtain ⟨i, hi⟩ := List.mem_iff_getElem?.1 hp
  have hlt : i < n := by
    have := (List.getElem?_eq_some_iff.1 hi).1
    omega
  have hat := (infix_iff_getElem? (nodup_dirPlaces hD) (by omega) hhead).1 hinside i (by omega)
  rw [hi] at hat
  obtain ⟨r, hr, hfree⟩ := h.free (j + i) (by omega) (by omega)
  rw [dirRecords, List.getElem?_map, hat] at hr
  exact ⟨List.mem_of_getElem? hat, (Option.some.inj hr).symm ▸ hfree⟩

/-- **Insertion in a directory of several clusters.**  The new entry stays inside the directory
exactly when the free slots it gets lie in adjacent sectors. -/
theorem insert_inside_iff (hD : DirClusters g d D cs) {kmalloc : Nat → Option Sector} {code : Int}
    {d' : Disk}
    (h : Yields ((insertEntry D name attributes cluster size).run g kmalloc (clean d))
      (code, clean d')) :
    InsertsInside g d D cs name attributes cluster size code d' ↔
      RunAdjacent g d D cs (lfnCount name + 1) := by
  obtain ⟨a, r, hfirst, hiter, hp⟩ := yields_insertEntry.1 h
  cases slotSearch_places hD (Nat.succ_pos _) hiter with
  | full hdone hroom =>
      rw [hdone] at hp
      obtain ⟨rfl, hio⟩ := Prod.mk.inj hp
      obtain rfl : d' = d := congrArg Io.disk hio
      refine ⟨fun _ j hwindow => absurd ⟨j, hwindow.free⟩ hroom, fun _ => ⟨?_, ?_⟩⟩
      · exact fun lba k hne => absurd rfl hne
      · exact fun hcode => absurd hcode (by decide)
  | @found j hdone hwindow hstart =>
      rw [hdone, if_pos rfl] at hp
      obtain ⟨rfl, hio⟩ := Prod.mk.inj hp
      obtain rfl : d' = putRecords d r.2.startSector r.2.startSlot
          (newRecords name (generateShortName name a) attributes cluster size) :=
        (congrArg Io.disk hio).trans (streamed_eq g _ (slot_lt hstart) d)
      have hinfix : streamPlaces r.2.startSector r.2.startSlot (lfnCount name + 1) <:+:
          dirPlaces g D cs ↔ RunAdjacent g d D cs (lfnCount name + 1) := by
        rw [dirPlaces, streamPlaces_infix_iff (nodup_dirPlaces hD) (Nat.succ_pos _) hstart]
        exact ⟨fun hadj k hk => hk.unique hwindow ▸ hadj, fun hadj => hadj j hwindow⟩
      rw [← hinfix]
      constructor
      · intro hinside
        obtain ⟨a', r', -, hiter', hblock, -⟩ := hinside.consecutive rfl
        exact hiter'.unique hiter ▸ hblock
      · intro hblock
        have hclipped : ∀ r ∈ newRecords name (generateShortName name a) attributes cluster size,
            r.Clipped := clipped_newRecords (length_generateShortName name a)
        have hrecords := recordOf_putRecords d r.2.startSector r.2.startSlot hclipped
        rw [length_newRecords] at hrecords
        refine ⟨fun lba k hne => ?_, fun _ => ⟨a, r, hfirst, hiter, hblock, hrecords⟩⟩
        obtain ⟨p, hp, hat⟩ := putRecords_changes hne
        rw [length_newRecords] at hp
        obtain ⟨hmem, hfree⟩ := hwindow.isFree hD (Nat.succ_pos _) hstart hblock p hp
        exact ⟨p, hmem, hfree, hat⟩

/-- The name `a` is inserted in the root directory of a new volume. -/
theorem insert_inside_iff_a :
    InsertsInside wideGeometry blankDisk 0 [] [0x61] attrArchive 0 0 eok
        (after (insertEntry 0 [0x61] attrArchive 0 0) blankDisk) ↔
      RunAdjacent wideGeometry blankDisk 0 [] 2 :=
  insert_inside_iff (Or.inl ⟨rfl, rfl⟩)
    (succeeds_after (regular_insertEntry 0 [0x61] attrArchive 0 0) (by decide +kernel))

/-- The short name of one letter. -/
def letterName (c : UInt8) : List UInt8 := c :: List.replicate 10 0x20

/-- A volume with the directory `D` in the clusters 2 and 4 and the file `F` in cluster 3.  Of the
first cluster of the directory only the last slot is free. -/
def splitDisk : Disk :=
  let d := setFat largeGeometry (setFat largeGeometry blankDisk 2 4) 3 0xFFFF
  let d := setFat largeGeometry d 4 0xFFFF
  let d := putRecords d 257 0 [sfnRecord (letterName 0x44) attrDirectory 2 0,
    sfnRecord (letterName 0x46) attrArchive 3 512]
  putRecords d 258 0 ([dotRecord [dot] 2, dotRecord [dot, dot] 0] ++
    (List.range 13).map fun i => sfnRecord (letterName (UInt8.ofNat (0x41 + i))) attrArchive 0 0)

/-- The file `a` is made in `D`: its short-name record overwrites the first bytes of `F`. -/
theorem insertion_overwrites_file :
    DirClusters largeGeometry splitDisk 2 [2, 4] ∧
      Chain (fat largeGeometry splitDisk) (fun c => ¬ Live c) 3 [3] ∧
      (recordOf splitDisk (257, 1)).startingCluster = 3 ∧
      ∃ d', Yields ((insertEntry 2 [0x61] attrArchive 0 0).run largeGeometry (fun _ => none)
          (clean splitDisk)) (eok, clean d') ∧
        splitDisk (largeGeometry.clusterLba 3) 0 = 0 ∧ d' (largeGeometry.clusterLba 3) 0 = 0x41 ∧
        ¬ InsertsInside largeGeometry splitDisk 2 [2, 4] [0x61] attrArchive 0 0 eok d' := by
  have hfile : splitDisk (largeGeometry.clusterLba 3) 0 = 0 := by decide +kernel
  have hrun : returned ((insertEntry 2 [0x61] attrArchive 0 0).run largeGeometry (fun _ => none)
      (clean splitDisk) 3) = some eok := by decide +kernel
  have hbyte : left ((insertEntry 2 [0x61] attrArchive 0 0).run largeGeometry (fun _ => none)
      (clean splitDisk) 3) (largeGeometry.clusterLba 3) 0 = 0x41 := by decide +kernel
  have hlinks : fat largeGeometry splitDisk 2 = 4 ∧ fat largeGeometry splitDisk 4 = 0xFFFF ∧
      fat largeGeometry splitDisk 3 = 0xFFFF := by decide +kernel
  have hdir : Chain (fat largeGeometry splitDisk) (fun c => ¬ Live c) 2 [2, 4] := by
    refine ⟨rfl, by decide, hlinks.1, by decide, ?_⟩
    rw [hlinks.2.1]
    exact show ¬ Live 0xFFFF by decide
  have hlone : Chain (fat largeGeometry splitDisk) (fun c => ¬ Live c) 3 [3] := by
    refine ⟨rfl, by decide, ?_⟩
    rw [hlinks.2.2]
    exact show ¬ Live 0xFFFF by decide
  refine ⟨Or.inr ⟨by decide, hdir⟩, hlone, by decide +kernel, _,
    yields_of_returned (regular_insertEntry 2 [0x61] attrArchive 0 0) hrun, hfile, hbyte,
    fun hinside => ?_⟩
  obtain ⟨p, hp, -, hlba, -⟩ := hinside.changed (largeGeometry.clusterLba 3) 0
    (by rw [hbyte, hfile]; decide)
  have hsectors : ∀ p ∈ dirPlaces largeGeometry 2 [2, 4], p.1 ≠ largeGeometry.clusterLba 3 := by
    decide
  exact hsectors p hp hlba.symm

end Insert

end Fat16

end BenmoshOS
