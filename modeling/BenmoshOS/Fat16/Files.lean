import BenmoshOS.Fat16.Contents
import BenmoshOS.Fat16.Parents

/-!
# FAT16: the files of a volume

Seen from outside, a volume is a map from the places of its files to the bytes in them.

* `Represents` — the map of a volume.
* `Represents.change` — one entry changes, and the map at its place.
* `Acts`, `Represents.call` — what a call that succeeds does with the map.
* `FileAt.later` — a file that no later call names keeps its bytes.
-/

namespace BenmoshOS

namespace Fat16

open Exec (Yields Halts)
open Fs

variable {g : Geometry} {d d' : Disk} {kmalloc : Nat → Option (Nat → UInt8)} {D P : Nat}

/-! ## Files and their places -/

/-- The bytes at the places of files: a directory, and the position of an entry in it. -/
abbrev FileMap := Nat × Nat → Option (List UInt8)

/-- The bytes are in the file whose entry is at the place `p`. -/
def FileAt (g : Geometry) (d : Disk) (p : Nat × Nat) (bytes : List UInt8) : Prop :=
  ∃ v, LiveEntry g d p.1 v ∧ v.pos = p.2 ∧ v.entry.isDirectory = false ∧
    fileBytes g d v.entry = bytes

/-- The volume has the files of the map, and no others. -/
def Represents (g : Geometry) (d : Disk) (S : FileMap) : Prop :=
  ∀ p bytes, S p = some bytes ↔ FileAt g d p bytes

section Places

variable {p : Nat × Nat} {bytes : List UInt8} {v w : Visit} {S : FileMap}

theorem FileAt.unique {bytes' : List UInt8} (h : FileAt g d p bytes) (h' : FileAt g d p bytes') :
    bytes = bytes' := by
  obtain ⟨v, hv, hpos, -, rfl⟩ := h
  obtain ⟨w, hw, hpos', -, rfl⟩ := h'
  rw [entries_inj hv.mem hw.mem (hpos.trans hpos'.symm)]

theorem Represents.of_live (hS : Represents g d S) (hv : LiveEntry g d D v)
    (hfile : v.entry.isDirectory = false) : S (D, v.pos) = some (fileBytes g d v.entry) :=
  (hS _ _).2 ⟨v, hv, rfl, hfile, rfl⟩

/-- There is no file where a directory is. -/
theorem Represents.of_directory (hS : Represents g d S) (hv : LiveEntry g d D v)
    (hdir : v.entry.isDirectory = true) : S (D, v.pos) = none := by
  refine Option.eq_none_iff_forall_ne_some.2 fun bytes hbytes => ?_
  obtain ⟨w, hw, hpos, hfile, -⟩ := (hS _ _).1 hbytes
  rw [entries_inj hw.mem hv.mem hpos, hdir] at hfile
  cases hfile

end Places

/-! ## One entry changes -/

section Change

variable {vs ts : List Visit} {old new : Option Visit} {v w : Visit}

/-- A directory stays unless its entry is the one that goes. -/
theorem IsDir.change (hchange : EntryChange g d d' D vs ts old new)
    (hempty : ∀ o ∈ old, o.entry.isDirectory = true →
      ∀ w ∈ entries g d o.entry.startingCluster, w.entry.IsDot)
    (hP : IsDir g d P)
    (hne : ∀ o ∈ old, o.entry.isDirectory = true → P ≠ o.entry.startingCluster) :
    IsDir g d' P := by
  have hkept : ∀ P c, IsDir g d P → Sub g d P c →
      (∀ o ∈ old, o.entry.isDirectory = true → c ≠ o.entry.startingCluster) →
      (∀ o ∈ old, o.entry.isDirectory = true → P ≠ o.entry.startingCluster) ∧ Sub g d' P c := by
    rintro P c hP ⟨w, hw, hdir, hdot, rfl⟩ hc
    refine ⟨fun o ho hodir heq => hdot (hempty o ho hodir w (heq ▸ hw)), w, ?_, hdir, hdot, rfl⟩
    by_cases hPD : P = D
    · subst hPD
      rw [hchange.before] at hw
      rw [hchange.after]
      exact mem_middle.2 (Or.inl ((mem_middle.1 hw).resolve_right fun hold => hc w hold hdir rfl))
    · rwa [hchange.others P hP hPD]
  exact hP.kept hkept hne

/-- The live entries but the one that changes are the same. -/
theorem liveEntry_iff (hchange : EntryChange g d d' D vs ts old new)
    (hempty : ∀ o ∈ old, o.entry.isDirectory = true →
      ∀ w ∈ entries g d o.entry.startingCluster, w.entry.IsDot)
    (hold : P = D → old ≠ some v) (hnew : P = D → new ≠ some v) :
    LiveEntry g d' P v ↔ LiveEntry g d P v := by
  have hmem : IsDir g d P → (v ∈ entries g d' P ↔ v ∈ entries g d P) := by
    intro hP
    by_cases hPD : P = D
    · subst hPD
      rw [hchange.after, hchange.before, mem_middle, mem_middle]
      simp [hold rfl, hnew rfl]
    · rw [hchange.others P hP hPD]
  constructor
  · intro h
    rcases h.isDir.of_change hchange with hP | hdots
    · exact ⟨hP, (hmem hP).1 h.mem, h.not_dot⟩
    · exact absurd (hdots v h.mem) h.not_dot
  · intro h
    refine ⟨h.isDir.change hchange hempty fun o ho hdir heq => ?_, (hmem h.isDir).2 h.mem,
      h.not_dot⟩
    exact h.not_dot (hempty o ho hdir v (heq ▸ h.mem))

/-- The other entries of a directory are at other positions. -/
theorem pos_ne_of_entries {o : Option Visit} (h : entries g d D = vs ++ (o.toList ++ ts))
    (ho : o = some w) (hv : v ∈ vs ++ ts) : v.pos ≠ w.pos := by
  subst ho
  intro hpos
  have hvmem : v ∈ entries g d D := h ▸ mem_middle.2 (Or.inl hv)
  have hwmem : w ∈ entries g d D := h ▸ mem_middle.2 (Or.inr rfl)
  obtain rfl := entries_inj hvmem hwmem hpos
  exact not_mem_of_entries h hv

/-- The places of the files and the bytes of every file are as before. -/
theorem Represents.frame {S : FileMap} (hS : Represents g d S)
    (hrec : ∀ P, IsDir g d P → records g d' P = records g d P)
    (hkept : ∀ P w, LiveEntry g d P w → w.entry.isDirectory = false →
      fileBytes g d' w.entry = fileBytes g d w.entry) : Represents g d' S := by
  intro p bytes
  rw [hS p bytes]
  refine exists_congr fun v => ?_
  have hiff : LiveEntry g d' p.1 v ↔ LiveEntry g d p.1 v :=
    liveEntry_iff (entryChange_frame hrec) (by simp) (by simp) (by simp)
  constructor
  · rintro ⟨hv, hpos, hfile, hbytes⟩
    exact ⟨hiff.2 hv, hpos, hfile, (hkept _ v hv hfile).trans hbytes⟩
  · rintro ⟨hv, hpos, hfile, hbytes⟩
    exact ⟨hiff.1 hv, hpos, hfile, (hkept _ v (hiff.1 hv) hfile).symm.trans hbytes⟩

/-- **One entry.**  The map changes at the place of the entry, and nowhere else. -/
theorem Represents.change {S : FileMap} {x : Option (List UInt8)} {pos : Nat}
    (hS : Represents g d S) (hchange : EntryChange g d d' D vs ts old new)
    (hempty : ∀ o ∈ old, o.entry.isDirectory = true →
      ∀ w ∈ entries g d o.entry.startingCluster, w.entry.IsDot)
    (hone : ∃ o, old = some o ∨ new = some o)
    (hpos : ∀ o, old = some o ∨ new = some o → o.pos = pos)
    (hlive : ∀ n ∈ new, LiveEntry g d' D n)
    (hx : ∀ bytes, x = some bytes ↔
      ∃ n ∈ new, n.entry.isDirectory = false ∧ fileBytes g d' n.entry = bytes)
    (hkept : ∀ P w, LiveEntry g d P w → w.entry.isDirectory = false → (P, w.pos) ≠ (D, pos) →
      fileBytes g d' w.entry = fileBytes g d w.entry) :
    Represents g d' (Function.update S (D, pos) x) := by
  intro p bytes
  by_cases hp : p = (D, pos)
  · subst hp
    rw [Function.update_self, hx]
    constructor
    · rintro ⟨n, hn, hfile, hbytes⟩
      exact ⟨n, hlive n hn, hpos n (Or.inr hn), hfile, hbytes⟩
    · rintro ⟨v, hv, hvpos, hfile, hbytes⟩
      -- nothing is at the place of the change but the new entry
      have hmem : v ∈ entries g d' D := hv.mem
      rw [hchange.after] at hmem
      rcases mem_middle.1 hmem with hmem | hnew
      · obtain ⟨o, ho⟩ := hone
        have hopos := hvpos.trans (hpos o ho).symm
        rcases ho with ho | ho
        · exact absurd hopos (pos_ne_of_entries hchange.before ho hmem)
        · exact absurd hopos (pos_ne_of_entries hchange.after ho hmem)
      · exact ⟨v, hnew, hfile, hbytes⟩
  · rw [Function.update_of_ne hp, hS p bytes]
    refine exists_congr fun v => ?_
    by_cases hvpos : v.pos = p.2
    · have hne : (p.1, v.pos) ≠ (D, pos) := by rwa [hvpos]
      have hout : p.1 = D → ∀ o, old = some o ∨ new = some o → o ≠ v := by
        rintro hPD o ho rfl
        exact hne (Prod.ext hPD (hpos o ho))
      have hiff : LiveEntry g d' p.1 v ↔ LiveEntry g d p.1 v :=
        liveEntry_iff hchange hempty (fun hPD hold => hout hPD v (Or.inl hold) rfl)
          fun hPD hnew => hout hPD v (Or.inr hnew) rfl
      constructor
      · rintro ⟨hv, -, hfile, hbytes⟩
        exact ⟨hiff.2 hv, hvpos, hfile, (hkept _ v hv hfile hne).trans hbytes⟩
      · rintro ⟨hv, -, hfile, hbytes⟩
        exact ⟨hiff.1 hv, hvpos, hfile, (hkept _ v (hiff.1 hv) hfile hne).symm.trans hbytes⟩
    · exact ⟨fun h => absurd h.2.1 hvpos, fun h => absurd h.2.1 hvpos⟩

end Change

/-! ## The bytes of the other files -/

section Frame

variable {v w : Visit} {cs : List Nat} {c lba : Nat}

/-- A file keeps its bytes when neither the FAT entries nor the sectors of its clusters change. -/
theorem Sound.fileBytes_eq (h : Sound g d) (hw : LiveEntry g d P w)
    (hfile : w.entry.isDirectory = false)
    (hkept : ∀ cs, Owns g d w.entry.startingCluster cs → ∀ c ∈ cs, fat g d' c = fat g d c ∧
      ∀ lba, g.InCluster c lba → d' lba = d lba) :
    fileBytes g d' w.entry = fileBytes g d w.entry := by
  obtain ⟨cs, hcs, hlen⟩ := h.chain P w hw
  have hlen : cs.length = g.clustersFor w.entry.fileSize := hlen.trans (if_neg (by simp [hfile]))
  exact fileBytes_congr hcs hlen (fun c hc => (hkept cs hcs c hc).1)
    fun c hc => (hkept cs hcs c hc).2

/-- The clusters of files are no directories. -/
theorem Sound.not_dirSector (h : Sound g d) (hD : IsDir g d D) (hw : LiveEntry g d P w)
    (hfile : w.entry.isDirectory = false) (hcs : Owns g d w.entry.startingCluster cs) (hc : c ∈ cs)
    (hlba : g.InCluster c lba) : ¬ DirSector g D lba := by
  intro hdir
  have hc2 := (hcs.isCluster c hc).1
  obtain rfl := hdir.eq (h.dirNumber hD) (Or.inr hc2) ((dirSector_iff_inCluster hc2).2 hlba)
  exact h.dir_not_mem hw hfile hcs hD hc

theorem rootDirSector_le_of_inCluster (hc : 2 ≤ c) (hlba : g.InCluster c lba) :
    g.rootDirSector ≤ lba :=
  (g.rootDirSector_le_dirBase c).trans ((dirSector_iff_inCluster hc).2 hlba).1

/-- A change inside a directory changes no file. -/
theorem Sound.fileBytes_outside (hg : g.Valid) (h : Sound g d) (hD : IsDir g d D)
    (hout : ∀ lba, ¬ DirSector g D lba → d' lba = d lba) (hw : LiveEntry g d P w)
    (hfile : w.entry.isDirectory = false) : fileBytes g d' w.entry = fileBytes g d w.entry := by
  refine h.fileBytes_eq hw hfile fun cs hcs c hc => ⟨?_, fun lba hlba => ?_⟩
  · exact fat_of_outside hg hout (hcs.isCluster c hc)
  · exact hout lba (h.not_dirSector hD hw hfile hcs hc hlba)

/-- The clusters of another entry are not touched. -/
theorem Sound.not_mem_other (h : Sound g d) (hv : LiveEntry g d D v)
    (hcs : Owns g d v.entry.startingCluster cs) (hw : LiveEntry g d P w)
    (hne : (P, w.pos) ≠ (D, v.pos)) {ws : List Nat} (hws : Owns g d w.entry.startingCluster ws)
    (hc : c ∈ ws) : c ∉ cs := by
  intro hmem
  obtain ⟨rfl, hpos⟩ := h.disjoint P w ws D v cs c hw hv hws hcs hc hmem
  exact hne (by rw [hpos])

end Frame

/-! ## What the calls do -/

section Calls

variable {S : FileMap} {name : Name} {v : Visit} {cs : List Nat} {c : Nat}

/-- A new entry, of an empty file or of a directory. -/
theorem Represents.inserted (hg : g.Valid) (h : Sound g d) (hS : Represents g d S)
    (hD : IsDir g d D) (hname : Ascii name) (hlen : name.length ≤ 255) {attributes : UInt8}
    {cluster : Nat}
    (hlfn : attributes ≠ attrLfn) (hlabel : attributes ≠ attrVolumeId) (hcluster : cluster < 65536)
    (hins : Inserted g d D name attributes cluster 0 d')
    (hdots : attributes &&& attrDirectory ≠ 0 → 2 ≤ cluster ∧ cluster ≠ D ∧
      entries g d cluster =
        [⟨0, emptyBuffer, dotRecord [dot] cluster⟩, ⟨1, emptyBuffer, dotRecord [dot, dot] D⟩]) :
    ∃ pos, S (D, pos) = none ∧
      (∀ v ∈ entries g d' D, v ∉ entries g d D → v.pos = pos) ∧
      Represents g d' (Function.update S (D, pos)
        (if attributes &&& attrDirectory = 0 then some [] else none)) := by
  obtain ⟨vs, ts, new, hchange, hdot, hattributes, hsize⟩ :=
    hins.entryChange h hD hname hlen hlfn hlabel hcluster hdots
  have hempty : ∀ o ∈ (none : Option Visit), o.entry.isDirectory = true →
      ∀ w ∈ entries g d o.entry.startingCluster, w.entry.IsDot := by simp
  have hmem : new ∈ entries g d' D := by
    rw [hchange.after]
    exact mem_middle.2 (Or.inr rfl)
  refine ⟨new.pos, Option.eq_none_iff_forall_ne_some.2 fun bytes hbytes => ?_, fun v hv hout => ?_,
    hS.change hchange hempty ⟨new, Or.inr rfl⟩ ?_ ?_ (fun bytes => ?_) fun P w hw hfile _ => ?_⟩
  · obtain ⟨v, hv, hpos, -, -⟩ := (hS _ _).1 hbytes
    have hv : v ∈ entries g d D := hv.mem
    rw [hchange.before] at hv
    rcases mem_middle.1 hv with hv | hold
    · exact pos_ne_of_entries hchange.after rfl hv hpos
    · cases hold
  · rw [hchange.after] at hv
    rcases mem_middle.1 hv with hv | hnew
    · refine absurd ?_ hout
      rw [hchange.before]
      exact mem_middle.2 (Or.inl hv)
    · rw [Option.some.inj hnew]
  · rintro o (ho | ho)
    · cases ho
    · rw [Option.some.inj ho]
  · rintro n ⟨⟩
    exact ⟨hD.change hchange hempty (by simp), hmem, hdot⟩
  · have hbytes : fileBytes g d' new.entry = [] := by
      rw [fileBytes, hsize (by decide)]
      rfl
    by_cases hdir : attributes &&& attrDirectory = 0
    · have hfile : new.entry.isDirectory = false := by simp [Record.isDirectory, hattributes, hdir]
      rw [if_pos hdir]
      constructor
      · rintro ⟨⟩
        exact ⟨new, rfl, hfile, hbytes⟩
      · rintro ⟨n, ⟨⟩, -, rfl⟩
        rw [hbytes]
    · have hfile : new.entry.isDirectory = true := by simp [Record.isDirectory, hattributes, hdir]
      rw [if_neg hdir]
      constructor
      · rintro ⟨⟩
      · rintro ⟨n, ⟨⟩, hnot, -⟩
        exact absurd (hnot.symm.trans hfile) (by decide)
  · obtain ⟨attempt, p, vs, ts, hspec⟩ := hins.spec (h.zeroTail D hD) hname hlen hlfn hlabel
    exact h.fileBytes_outside hg hD (fun lba hlba => hspec.outside' hlba) hw hfile

/-- A cluster is prepared for a new directory. -/
theorem Represents.prepared (hg : g.Valid) (h : Sound g d) (hS : Represents g d S)
    (hc : LeastFree g d c) : Represents g (prepared g d c D) S := by
  have hprep := prepared_spec (P := D) hg h hc
  refine hS.frame hprep.records_eq fun P w hw hfile => h.fileBytes_eq hw hfile fun cs hcs a ha => ?_
  have ha' := hcs.isCluster a ha
  have hne : a ≠ c := by
    rintro rfl
    exact hcs.fat_ne_zero a ha hc.free
  refine ⟨by rw [hprep.fat_eq a ha', if_neg hne], fun lba hlba => ?_⟩
  refine hprep.outside lba (rootDirSector_le_of_inCluster ha'.1 hlba) fun hin => ?_
  exact not_inCluster ha'.1 hc.isCluster.1 hne hlba ((dirSector_iff_inCluster hc.isCluster.1).1 hin)

/-- An entry is deleted. -/
theorem Represents.deleted (hg : g.Valid) (h : Sound g d) (hS : Represents g d S)
    (hv : LiveEntry g d D v) (hcs : Owns g d v.entry.startingCluster cs)
    (hempty : v.entry.isDirectory = true →
      ∀ w ∈ entries g d v.entry.startingCluster, w.entry.IsDot) :
    Represents g (deleted g d D v cs) (Function.update S (D, v.pos) none) := by
  obtain ⟨⟨vs, ts, hbefore, hafter⟩, hothers⟩ := entries_deleted hg h hv hcs.isCluster
  have hchange : EntryChange g d (Fat16.deleted g d D v cs) D vs ts (some v) none := by
    refine ⟨hbefore, hafter, hothers, ?_, by simp⟩
    rintro w ⟨⟩
    exact hv.not_dot
  refine hS.change hchange ?_ ⟨v, Or.inl rfl⟩ ?_ (by simp) (by simp) fun P w hw hfile hne =>
    h.fileBytes_eq hw hfile fun ws hws c hc => ?_
  · rintro o ⟨⟩
    exact hempty
  · rintro o (ho | ho)
    · rw [Option.some.inj ho]
    · cases ho
  · have hc' := hws.isCluster c hc
    refine ⟨?_, fun lba hlba => ?_⟩
    · rw [fat_deleted hg hv hcs.isCluster hc', if_neg (h.not_mem_other hv hcs hw hne hws hc)]
    · rw [Fat16.deleted, putRecord_of_ne (pos_lt_slots hv.mem)
        (h.not_dirSector hv.isDir hw hfile hws hc hlba),
        clearAll_of_le hg hcs.isCluster (rootDirSector_le_of_inCluster hc'.1 hlba)]

/-- The clusters of the other files are not touched by a write. -/
theorem Rewritten.kept {d₁ : Disk} {ncs ws : List Nat} {first : Nat} {w : Visit}
    (hre : Rewritten g d d₁ cs ncs first) (h : Sound g d) (hv : LiveEntry g d D v)
    (hcs : Owns g d v.entry.startingCluster cs) (hw : LiveEntry g d P w)
    (hne : (P, w.pos) ≠ (D, v.pos)) (hws : Owns g d w.entry.startingCluster ws) (hc : c ∈ ws) :
    fat g d₁ c = fat g d c ∧ ∀ lba, g.InCluster c lba → d₁ lba = d lba := by
  have hc' := hws.isCluster c hc
  have hold := h.not_mem_other hv hcs hw hne hws hc
  have hnew : c ∉ ncs := by
    intro hmem
    exact (hre.new c hmem).elim hold (hws.fat_ne_zero c hc)
  refine ⟨hre.fat_eq c hc' hold hnew, fun lba hlba => ?_⟩
  refine hre.sector_eq lba (rootDirSector_le_of_inCluster hc'.1 hlba) fun a ha => ?_
  refine not_inCluster hc'.1 (hre.owns.isCluster a ha).1 ?_ hlba
  rintro rfl
  exact hnew ha

/-- A file is written. -/
theorem Represents.written (hg : g.Valid) (h : Sound g d) (hS : Represents g d S)
    (hv : LiveEntry g d D v) (hfile : v.entry.isDirectory = false)
    (hcs : Owns g d v.entry.startingCluster cs) {bytes : List UInt8}
    (hstores : Stores g d d' D v cs bytes) :
    Represents g d' (Function.update S (D, v.pos) (some bytes)) := by
  obtain ⟨d₁, first, ncs, hre, hholds, -, hsize, rfl⟩ := hstores
  obtain ⟨vs, ts, hchange⟩ : ∃ vs ts, EntryChange g d (putRecord d₁ (dirBase g D) v.pos
      (v.entry.withChain first bytes.length)) D vs ts (some v)
      (some (v.rewritten first bytes.length)) := hre.entryChange h hv hfile hcs
  have hout : ∀ lba, ¬ DirSector g D lba → putRecord d₁ (dirBase g D) v.pos
      (v.entry.withChain first bytes.length) lba = d₁ lba :=
    fun lba hlba => putRecord_of_ne (pos_lt_slots hv.mem) hlba
  have hempty : ∀ o ∈ some v, o.entry.isDirectory = true →
      ∀ w ∈ entries g d o.entry.startingCluster, w.entry.IsDot := by
    rintro o ⟨⟩ hdir
    exact absurd (hfile.symm.trans hdir) (by decide)
  have hafter := hchange.after
  refine hS.change hchange hempty ⟨v, Or.inl rfl⟩ ?_ ?_ (fun bytes' => ?_) fun P w hw hwfile hne =>
    h.fileBytes_eq hw hwfile fun ws hws c hc => ?_
  · rintro o (ho | ho)
    · rw [Option.some.inj ho]
    · rw [← Option.some.inj ho]
      rfl
  · rintro n ⟨⟩
    refine ⟨hv.isDir.change hchange hempty ?_, ?_, isDot_withChain.not.2 hv.not_dot⟩
    · rintro o ⟨⟩ hdir
      exact absurd (hfile.symm.trans hdir) (by decide)
    · rw [hafter]
      exact mem_middle.2 (Or.inr rfl)
  · -- the new chain holds the bytes, and the new entry does not lie in it
    have hdir : D ∉ ncs := hre.dir_not_mem h hv hfile hcs hv.isDir
    have hkept : Holds g (putRecord d₁ (dirBase g D) v.pos (v.entry.withChain first bytes.length))
        ncs bytes := by
      refine hholds.congr fun c hc lba hlba => hout lba fun hin => ?_
      have hc2 := (hre.owns.isCluster c hc).1
      obtain rfl := hin.eq (h.dirNumber hv.isDir) (Or.inr hc2)
        ((dirSector_iff_inCluster hc2).2 hlba)
      exact hdir hc
    have howns : Owns g (putRecord d₁ (dirBase g D) v.pos (v.entry.withChain first bytes.length))
        (v.entry.withChain first bytes.length).startingCluster ncs := by
      rw [Record.startingCluster_withChain (hre.owns.start_lt hg)]
      exact hre.owns.congr fun c hc => fat_of_outside hg hout (hre.owns.isCluster c hc)
    have hbytes := hkept.fileBytes_eq howns (Record.fileSize_withChain hsize)
    constructor
    · rintro ⟨⟩
      exact ⟨_, rfl, Record.isDirectory_withChain.trans hfile, hbytes⟩
    · rintro ⟨n, ⟨⟩, -, rfl⟩
      exact congrArg some hbytes.symm
  · obtain ⟨hfat, hsame⟩ := hre.kept h hv hcs hw hne hws hc
    refine ⟨(fat_of_outside hg hout (hws.isCluster c hc)).trans hfat, fun lba hlba => ?_⟩
    exact (hout lba (h.not_dirSector hv.isDir hw hwfile hws hc hlba)).trans (hsame lba hlba)

end Calls

/-! ## Every call -/

section Acts

variable {S : FileMap} {p : Nat × Nat} {path : List UInt8} {name : Name} {v : Visit}

/-- The path leads to the file at the place `p`. -/
def NamesFile (g : Geometry) (d : Disk) (path : List UInt8) (p : Nat × Nat) : Prop :=
  ∃ name v, LeadsTo g d path p.1 name ∧ lookup g d p.1 name = some v ∧ v.pos = p.2 ∧
    v.entry.isDirectory = false

/-- The path leads to a name that its directory `D` does not have. -/
def NamesNew (g : Geometry) (d : Disk) (path : List UInt8) (D : Nat) : Prop :=
  ∃ name, LeadsTo g d path D name ∧ lookup g d D name = none

/-- What a call that succeeds does with the files of the volume `d`. -/
inductive Acts (g : Geometry) (d : Disk) (S : FileMap) : Call → FileMap → Prop
  | createFile {path : List UInt8} {D pos : Nat} (hpath : NamesNew g d path D)
      (hnone : S (D, pos) = none) :
      Acts g d S (.createFile path) (Function.update S (D, pos) (some []))
  | writeFile {path data : List UInt8} {append : Bool} {p : Nat × Nat} {bytes : List UInt8}
      (hpath : NamesFile g d path p) (hbytes : S p = some bytes) :
      Acts g d S (.writeFile path data append)
        (Function.update S p (some (keptBytes append bytes ++ data)))
  | writeNew {path data : List UInt8} {append : Bool} {D pos : Nat} (hpath : NamesNew g d path D)
      (hnone : S (D, pos) = none) :
      Acts g d S (.writeFile path data append) (Function.update S (D, pos) (some data))
  | deleteFile {path : List UInt8} {p : Nat × Nat} {bytes : List UInt8}
      (hpath : NamesFile g d path p) (hbytes : S p = some bytes) :
      Acts g d S (.deleteFile path) (Function.update S p none)
  | makeDirectory {path : List UInt8} : Acts g d S (.makeDirectory path) S
  | removeDirectory {path : List UInt8} : Acts g d S (.removeDirectory path) S

/-- A path that has been resolved leads where it says. -/
theorem Resolves.leadsTo {env : Env} (hres : Resolves env d path D name) :
    LeadsTo env.geom d path D name := by
  have hyields : Yields ((resolvePath path).run env.geom env.kmalloc (clean d))
      (.ok (D, name), clean d) := ⟨env.fuel, hres.eq⟩
  exact ((yields_resolvePath hyields).2 D name).2 rfl

/-- An entry that is written is a live file with a chain of its length. -/
theorem Represents.writeEntry (hg : g.Valid) (hfits : g.Fits) (h : Sound g d)
    (hS : Represents g d S) (hD : IsDir g d D) (hv : v ∈ entries g d D) {data : List UInt8}
    {append : Bool}
    (hok : Succeeds (writeEntry (v.found (dirBase g D)) data append) g kmalloc d d') :
    v.entry.isDirectory = false ∧ S (D, v.pos) = some (fileBytes g d v.entry) ∧
      Represents g d' (Function.update S (D, v.pos)
        (some (keptBytes append (fileBytes g d v.entry) ++ data))) := by
  have hfile := hok.isFile
  have hlive := h.live_file hD hv hfile
  obtain ⟨cs, hcs, hlen⟩ := h.chain D v hlive
  have hlen : cs.length = g.clustersFor v.entry.fileSize := hlen.trans (if_neg (by simp [hfile]))
  have hstores := writeEntry_stores hg hfits hcs hlen hok
  exact ⟨hfile, hS.of_live hlive hfile, hS.written hg h hlive hfile hcs hstores⟩

/-- `fat16_write_file` writes the file it finds, or one it makes. -/
theorem Represents.writeFile (hg : g.Valid) (hfits : g.Fits) (h : Sound g d)
    (hS : Represents g d S) {data : List UInt8} {append : Bool} (hpath : AsciiPath path)
    (hok : Succeeds (writeFile path data append) g kmalloc d d') :
    ∃ S', Acts g d S (.writeFile path data append) S' ∧ Represents g d' S' := by
  rw [writeFile_eq] at hok
  obtain ⟨D, name, found, hleads, hlooks, hok⟩ := hok.onEntry (regular_writeFound data append)
  have hlead : LeadsTo g d path D name := (hleads D name).2 ⟨rfl, rfl⟩
  obtain ⟨hD, hcomponent⟩ := hlead.isDir hg h
  have hsame := h.lookup_of_looks hg hD hlooks
  cases hl : lookup g d D name with
  | some v =>
      rw [hl] at hsame
      obtain rfl : some (v.found (dirBase g D)) = found := hsame
      obtain ⟨hfile, hbytes, hS'⟩ := hS.writeEntry hg hfits h hD (lookup_mem hl).1 hok
      exact ⟨_, .writeFile ⟨name, v, hlead, hl, rfl, hfile⟩ hbytes, hS'⟩
  | none =>
      rw [hl] at hsame
      obtain rfl : none = found := hsame
      obtain ⟨-, d₁, found, hwith, hlooks₁, hok⟩ := hok.writeNew
      have hins : Inserted g d D name attrArchive 0 0 d₁ := by
        obtain ⟨env, rfl, hfuel, hrun⟩ := ret_of_yields (regular_insertEntry D name attrArchive 0 0)
          (hwith.yields kmalloc)
        rcases insertEntry_cases (h.scannable hg hD) hfuel hrun with ⟨hcode, -⟩ | ⟨-, d₂, hio, hins⟩
        · exact absurd hcode (by decide)
        · obtain rfl : d₁ = d₂ := congrArg Io.disk hio
          exact hins
      have hname := hcomponent.ascii hpath
      have hlen := hcomponent.length_le
      obtain ⟨pos, hnone, hnew, hS₁⟩ := hS.inserted hg h hD hname hlen (by decide) (by decide)
        (by decide) hins fun hdir => absurd rfl hdir
      obtain ⟨h₁, -⟩ := hins.file_sound hg h hD hname hlen
      have hD₁ := (hins.file_isDir h hD hname hlen D).2 hD
      obtain ⟨v, hl₁, rfl⟩ := Option.map_eq_some_iff.1 (h₁.lookup_of_looks hg hD₁ hlooks₁)
      obtain ⟨hmem, hmatches⟩ := lookup_mem hl₁
      -- the entry that is found is the new one, as no other has the name
      have hpos : v.pos = pos := hnew v hmem fun hold => lookup_eq_none_iff.1 hl v hold hmatches
      obtain ⟨hfile, hbytes, hS'⟩ := hS₁.writeEntry hg hfits h₁ hD₁ hmem hok
      rw [hpos, Function.update_self] at hbytes
      have hempty : fileBytes g d₁ v.entry = [] := (Option.some.inj hbytes).symm
      rw [hpos, hempty, Function.update_idem] at hS'
      refine ⟨_, .writeNew ⟨name, hlead, hl⟩ hnone, ?_⟩
      cases append with
      | true => exact hS'
      | false => exact hS'

/-- **One call.**  A call that succeeds does with the files what `Acts` says, and leaves a volume
that has just these files. -/
theorem Represents.call (hg : g.Valid) (hfits : g.Fits) (h : Sound g d) (hS : Represents g d S)
    {op : Call} (hpath : AsciiPath op.path) (hok : Succeeds op.run g kmalloc d d') :
    ∃ S', Acts g d S op S' ∧ Represents g d' S' := by
  have hneg : ¬ eok < 0 := by decide
  cases op with
  | writeFile path data append => exact hS.writeFile hg hfits h hpath hok
  | createFile path =>
      obtain ⟨env, rfl, hfuel, hrun⟩ := ret_of_yields (Call.regular (.createFile path)) hok
      rcases createFile_cases hg hfuel h hrun with ⟨herr, -⟩ | ⟨-, D, name, d₁, hres, hl, hins, hio⟩
      · exact absurd herr hneg
      · obtain rfl : d' = d₁ := congrArg Io.disk hio
        obtain ⟨pos, hnone, -, hS'⟩ := hS.inserted hg h hres.isDir (hres.component.ascii hpath)
          hres.component.length_le (by decide) (by decide) (by decide) hins
          fun hdir => absurd rfl hdir
        exact ⟨_, .createFile ⟨name, hres.leadsTo, hl⟩ hnone, hS'⟩
  | deleteFile path =>
      obtain ⟨env, rfl, hfuel, hrun⟩ := ret_of_yields (Call.regular (.deleteFile path)) hok
      rcases deleteFile_cases hg hfuel h hrun with ⟨herr, -⟩ | ⟨-, D, name, v, cs, hres, hl, hfile,
        hlive, hcs, hio⟩
      · exact absurd herr hneg
      · obtain rfl : d' = Fat16.deleted env.geom d D v cs := congrArg Io.disk hio
        refine ⟨_, .deleteFile ⟨name, v, hres.leadsTo, hl, rfl, hfile⟩ (hS.of_live hlive hfile),
          hS.deleted hg h hlive hcs fun hdir => ?_⟩
        exact absurd (hfile.symm.trans hdir) (by decide)
  | makeDirectory path =>
      obtain ⟨env, rfl, hfuel, hrun⟩ := ret_of_yields (Call.regular (.makeDirectory path)) hok
      rcases makeDirectory_cases hg hfuel h hrun with ⟨herr, -⟩ | ⟨D, name, c, hres, -, hfree,
        ⟨herr, -⟩ | ⟨-, d₁, hio, hins⟩⟩
      · exact absurd herr hneg
      · exact absurd herr (by decide)
      · obtain rfl : d' = d₁ := congrArg Io.disk hio
        have hprep := prepared_spec (P := D) hg h hfree
        have hc2 := hfree.isCluster.1
        have hlt := IsCluster.lt_reserved hg hfree.isCluster
        have hcD : c ≠ D := by
          rintro rfl
          exact hfree.not_owned (h.owned_dir hres.isDir (by omega))
        obtain ⟨pos, hnone, -, hS'⟩ := (hS.prepared hg h hfree).inserted hg hprep.sound
          (hprep.isDir D hres.isDir) (hres.component.ascii hpath) hres.component.length_le
          (by decide) (by decide) (by omega) hins fun _ => ⟨hc2, hcD, entries_newDirDisk hc2⟩
        rw [if_neg (by decide), ← hnone, Function.update_eq_self] at hS'
        exact ⟨S, .makeDirectory, hS'⟩
  | removeDirectory path =>
      obtain ⟨env, rfl, hfuel, hrun⟩ := ret_of_yields (Call.regular (.removeDirectory path)) hok
      rcases removeDirectory_cases hg hfuel h hrun with ⟨herr, -⟩ | ⟨-, D, name, v, -, -, hdir,
        hlive, hempty, hio⟩
      · exact absurd herr hneg
      · obtain rfl : d' = Fat16.deleted env.geom d D v [v.entry.startingCluster] :=
          congrArg Io.disk hio
        have hS' := hS.deleted hg h hlive (h.dirChain hlive hdir) fun _ => hempty
        rw [← hS.of_directory hlive hdir, Function.update_eq_self] at hS'
        exact ⟨S, .removeDirectory, hS'⟩

end Acts

/-! ## Files over runs -/

section Runs

variable {S S' : FileMap} {p : Nat × Nat} {bytes path : List UInt8} {d₀ d₁ : Disk}

/-- The states behind calls that succeed and do not name the file at the place `p`. -/
inductive Later (g : Geometry) (kmalloc : Nat → Option (Nat → UInt8)) (p : Nat × Nat) (d : Disk) :
    Disk → Prop
  | start : Later g kmalloc p d d
  | call {d₁ d₂ : Disk} {op : Call} (h : Later g kmalloc p d d₁) (hpath : AsciiPath op.path)
      (hother : ¬ NamesFile g d₁ op.path p) (hok : Succeeds op.run g kmalloc d₁ d₂) :
      Later g kmalloc p d d₂

theorem Later.run (h : Later g kmalloc p d d') (hrun : Run g kmalloc d₀ d) :
    Run g kmalloc d₀ d' := by
  induction h with
  | start => exact hrun
  | call _ hpath _ hok ih => exact ih.call hpath hok

/-- A load of the path gives the bytes and nothing else, and it gives them when there is memory. -/
def LoadsBytes (g : Geometry) (kmalloc : Nat → Option (Nat → UInt8)) (d : Disk)
    (path bytes : List UInt8) : Prop :=
  (∀ b n io, Yields ((loadFile path).run g kmalloc (clean d)) (some (b, n), io) →
    slice b 0 n = bytes) ∧
  ((∀ n, (kmalloc n).isSome) →
    ∃ b io, Yields ((loadFile path).run g kmalloc (clean d)) (some (b, bytes.length), io))

/-- What is loaded from a path that leads to a file is what is in it. -/
theorem FileAt.loaded (hg : g.Valid) (h : Sound g d) (hat : FileAt g d p bytes)
    (hname : NamesFile g d path p) : LoadsBytes g kmalloc d path bytes := by
  obtain ⟨name, v, hlead, hl, hpos, hfile⟩ := hname
  have hD := (hlead.isDir hg h).1
  have hlive := h.live_file hD (lookup_mem hl).1 hfile
  have hbytes : fileBytes g d v.entry = bytes := FileAt.unique ⟨v, hlive, hpos, hfile, rfl⟩ hat
  refine ⟨fun b n io hload => ?_, fun hmemory => ?_⟩
  · obtain ⟨D, name', v', hlead', hl', -, hslice⟩ := loadFile_reads hg h hload
    obtain ⟨rfl, rfl⟩ := hlead.unique (h.looks hg hD name) hlead'
    obtain rfl := Option.some.inj (hl.symm.trans hl')
    exact hslice.trans hbytes
  · obtain ⟨b, io, hload⟩ := loadFile_returns hg h hlead hl hfile hmemory
    rw [← hbytes, length_fileBytes]
    exact ⟨b, io, hload⟩

/-- The files of a new volume. -/
theorem Formatted.represents (hf : Formatted g d) : Represents g d fun _ => none := by
  refine fun p bytes => ⟨fun hnone => absurd hnone (by simp), ?_⟩
  rintro ⟨v, hv, -⟩
  exact absurd hv hf.not_live

/-- **A file system.**  In a run on a new volume of at most 128 sectors a cluster, all of whose
paths are of 7-bit characters, every call that succeeds changes the map of the files as `Acts`
says: a creation adds an empty file, a write replaces or prolongs one, a deletion takes one away,
and no file is touched by calls on directories. -/
theorem run_call_acts (hf : Formatted g d₀) (hsmall : g.sectorsPerCluster ≤ 128)
    (h : Run g kmalloc d₀ d) (hS : Represents g d S) {op : Call} (hpath : AsciiPath op.path)
    (hok : Succeeds op.run g kmalloc d d') :
    ∃ S', Acts g d S op S' ∧ Represents g d' S' :=
  hS.call hf.valid (hf.valid.fits hsmall) (h.sound hf hsmall).1 hpath hok

/-- On a new volume `/a` becomes the only file. -/
theorem run_call_acts_a :
    ∃ S', Acts wideGeometry blankDisk (fun _ => none) (.createFile [0x2F, 0x61]) S' ∧
      Represents wideGeometry (after (createFile [0x2F, 0x61]) blankDisk) S' := by
  have hok : Succeeds (Call.createFile [0x2F, 0x61]).run wideGeometry (fun _ => none) blankDisk
      (after (createFile [0x2F, 0x61]) blankDisk) :=
    succeeds_after (Call.regular _) (by decide +kernel)
  have hf := formatted_blankDisk
  exact run_call_acts hf (by decide) .start hf.represents (below_of_all (by decide)) hok

end Runs

end Fat16

end BenmoshOS
