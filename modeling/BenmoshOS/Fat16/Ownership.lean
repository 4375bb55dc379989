import BenmoshOS.Fat16.Volume

/-!
# FAT16: how the steps of an operation move clusters

An operation of the driver frees, takes and links clusters, writes data into them and
changes one directory entry at a time.  This file says for each of these steps what
becomes of a sound volume and of its owned and stray clusters.

* `Sound.frame` — a step that touches neither a directory nor an owned FAT entry.
* `Sound.change` — a step that removes, adds or replaces one live entry; the file and
  directory cases of it are `Sound.fileChange`, `Sound.addDirectory` and
  `Sound.removeDirectory`.
-/

namespace BenmoshOS

namespace Fat16

variable {g : Geometry} {d d' : Disk}

theorem LiveEntry.owned {D : Nat} {v : Visit} {cs : List Nat} {c : Nat} (hv : LiveEntry g d D v)
    (hcs : Owns g d v.entry.startingCluster cs) (hc : c ∈ cs) : Owned g d c :=
  ⟨D, v, cs, hv, hcs, hc⟩

theorem Owned.isCluster {c : Nat} (h : Owned g d c) : g.IsCluster c := by
  obtain ⟨D, v, cs, -, hcs, hc⟩ := h
  exact hcs.isCluster c hc

theorem Owned.fat_ne_zero {c : Nat} (h : Owned g d c) : fat g d c ≠ 0 := by
  obtain ⟨D, v, cs, -, hcs, hc⟩ := h
  exact hcs.fat_ne_zero c hc

theorem Sound.owned_dir (h : Sound g d) {D : Nat} (hD : IsDir g d D) (h₀ : D ≠ 0) :
    Owned g d D := by
  obtain ⟨P, v, hv, hdir, rfl⟩ := Sound.parent hD h₀
  exact hv.owned (h.dirChain hv hdir) (List.mem_singleton_self _)

/-! ## Steps that change no directory -/

/-- The subdirectories of a directory. -/
def Sub (g : Geometry) (d : Disk) (D c : Nat) : Prop :=
  ∃ v ∈ entries g d D, v.entry.isDirectory = true ∧ ¬ v.entry.IsDot ∧
    v.entry.startingCluster = c

/-- The tree is determined by the subdirectories of its directories. -/
theorem isDir_iff_of_sub (h : ∀ D, IsDir g d D → ∀ c, Sub g d' D c ↔ Sub g d D c) {D : Nat} :
    IsDir g d' D ↔ IsDir g d D := by
  constructor
  · intro hD
    induction hD with
    | root => exact IsDir.root
    | sub hD hv hdir hdot ih =>
        obtain ⟨w, hw, hwdir, hwdot, hc⟩ := (h _ ih _).1 ⟨_, hv, hdir, hdot, rfl⟩
        rw [← hc]
        exact IsDir.sub ih hw hwdir hwdot
  · intro hD
    induction hD with
    | root => exact IsDir.root
    | sub hD hv hdir hdot ih =>
        obtain ⟨w, hw, hwdir, hwdot, hc⟩ := (h _ hD _).2 ⟨_, hv, hdir, hdot, rfl⟩
        rw [← hc]
        exact IsDir.sub ih hw hwdir hwdot

theorem entries_congr {D : Nat} (h : records g d' D = records g d D) :
    entries g d' D = entries g d D := by
  rw [entries, entries, h]

/-- A step that leaves the records of all directories and the FAT entries of all owned
clusters as they are. -/
theorem Sound.frame (h : Sound g d)
    (hrec : ∀ D, IsDir g d D → records g d' D = records g d D)
    (hfat : ∀ c, Owned g d c → fat g d' c = fat g d c) :
    Sound g d' ∧ ∀ c, Owned g d' c ↔ Owned g d c := by
  have hent : ∀ D, IsDir g d D → entries g d' D = entries g d D :=
    fun D hD => entries_congr (hrec D hD)
  have hdir : ∀ D, IsDir g d' D ↔ IsDir g d D := by
    intro D
    refine isDir_iff_of_sub fun D hD c => ?_
    unfold Sub
    rw [hent D hD]
  have hlive : ∀ D v, LiveEntry g d' D v ↔ LiveEntry g d D v := by
    intro D v
    constructor
    · intro hv
      have hD := (hdir D).1 hv.isDir
      exact ⟨hD, hent D hD ▸ hv.mem, hv.not_dot⟩
    · intro hv
      exact ⟨(hdir D).2 hv.isDir, by rw [hent D hv.isDir]; exact hv.mem, hv.not_dot⟩
  have howns : ∀ D v cs, LiveEntry g d D v →
      (Owns g d' v.entry.startingCluster cs ↔ Owns g d v.entry.startingCluster cs) := by
    intro D v cs hv
    have hkeep : ∀ cs, Owns g d v.entry.startingCluster cs →
        Owns g d' v.entry.startingCluster cs :=
      fun cs hcs => hcs.congr fun c hc => hfat c (hv.owned hcs hc)
    refine ⟨fun hcs => ?_, hkeep cs⟩
    obtain ⟨cs', hcs', -⟩ := h.chain D v hv
    rw [hcs.unique (hkeep cs' hcs')]
    exact hcs'
  have howned : ∀ c, Owned g d' c ↔ Owned g d c := by
    intro c
    constructor
    · rintro ⟨D, v, cs, hv, hcs, hc⟩
      have hv' := (hlive D v).1 hv
      exact ⟨D, v, cs, hv', (howns D v cs hv').1 hcs, hc⟩
    · rintro ⟨D, v, cs, hv, hcs, hc⟩
      exact ⟨D, v, cs, (hlive D v).2 hv, (howns D v cs hv).2 hcs, hc⟩
  refine ⟨⟨?_, ?_, ?_, ?_, ?_, ?_⟩, howned⟩
  · intro D hD
    rw [hrec D ((hdir D).1 hD)]
    exact h.flagFree D ((hdir D).1 hD)
  · intro D hD
    rw [hrec D ((hdir D).1 hD)]
    exact h.zeroTail D ((hdir D).1 hD)
  · rw [hent 0 IsDir.root]
    exact h.root_dots
  · intro P v w hv hvdir hw hdot
    have hv' := (hlive P v).1 hv
    rw [hent _ (IsDir.sub hv'.isDir hv'.mem hvdir hv'.not_dot)] at hw
    exact h.dots P v w hv' hvdir hw hdot
  · intro D v hv
    have hv' := (hlive D v).1 hv
    obtain ⟨cs, hcs, hlen⟩ := h.chain D v hv'
    exact ⟨cs, (howns D v cs hv').2 hcs, hlen⟩
  · intro D v cs D' v' cs' c hv hv' hcs hcs' hc hc'
    have hl := (hlive D v).1 hv
    have hl' := (hlive D' v').1 hv'
    exact h.disjoint D v cs D' v' cs' c hl hl' ((howns D v cs hl).1 hcs)
      ((howns D' v' cs' hl').1 hcs') hc hc'

/-- A FAT entry that no entry owns is written. -/
theorem Sound.setFat (hg : g.Valid) (h : Sound g d) {c v : Nat} (hc : g.IsCluster c)
    (hown : ¬ Owned g d c) (hv : v < 65536) :
    Sound g (setFat g d c v) ∧ ∀ a, Owned g (Fat16.setFat g d c v) a ↔ Owned g d a := by
  refine h.frame (fun D _ => records_congr fun lba hlba => ?_) fun a ha => ?_
  · exact setFat_of_le (IsCluster.lt_fat hg hc)
      ((g.rootDirSector_le_dirBase D).trans hlba.1)
  · rw [fat_setFat hg (IsCluster.lt_fat hg hc) (IsCluster.lt_fat hg ha.isCluster) hv, if_neg]
    rintro rfl
    exact hown ha

/-! ## Steps that change one entry -/

/-- One live entry of directory `D₀` is removed, added or replaced.  The clusters of the
new entry were not owned, or owned by the old one. -/
theorem Sound.change (h : Sound g d) {D₀ : Nat} (old new : Option Visit) (ocs ncs : List Nat)
    (hfat : ∀ c, g.IsCluster c → fat g d' c = fat g d c)
    (hlive : ∀ D v, LiveEntry g d' D v ↔
      (LiveEntry g d D v ∧ ¬ (D = D₀ ∧ old = some v)) ∨ (D = D₀ ∧ new = some v))
    (hold : ∀ v ∈ old, LiveEntry g d D₀ v ∧ Owns g d v.entry.startingCluster ocs)
    (hold' : old = none → ocs = [])
    (hnew : ∀ v ∈ new, Owns g d v.entry.startingCluster ncs ∧
      ncs.length = chainLength g v.entry ∧ ∀ c ∈ ncs, Owned g d c → c ∈ ocs)
    (hnew' : new = none → ncs = [])
    (hflag : ∀ D, IsDir g d' D → ∀ r ∈ records g d' D, FlagFree r)
    (hzero : ∀ D, IsDir g d' D → ZeroTail (records g d' D))
    (hroot : ∀ v ∈ entries g d' 0, ¬ v.entry.IsDot)
    (hdots : ∀ P v w, LiveEntry g d' P v → v.entry.isDirectory = true →
      w ∈ entries g d' v.entry.startingCluster → w.entry.IsDot →
      DotEntry P v.entry.startingCluster w) :
    Sound g d' ∧ ∀ c, Owned g d' c ↔ (Owned g d c ∧ c ∉ ocs) ∨ c ∈ ncs := by
  have howns : ∀ start cs, Owns g d' start cs ↔ Owns g d start cs := fun start cs =>
    ⟨fun hcs => hcs.congr fun c hc => (hfat c (hcs.isCluster c hc)).symm,
      fun hcs => hcs.congr fun c hc => hfat c (hcs.isCluster c hc)⟩
  -- an entry that stays owns none of the clusters of the old one
  have hstay : ∀ D v cs c, LiveEntry g d D v → ¬ (D = D₀ ∧ old = some v) →
      Owns g d v.entry.startingCluster cs → c ∈ cs → c ∉ ocs := by
    intro D v cs c hv hne hcs hc hoc
    cases hold₀ : old with
    | none => simp [hold' hold₀] at hoc
    | some o =>
        obtain ⟨ho, hocs⟩ := hold o hold₀
        obtain ⟨hD, hpos⟩ := h.disjoint D v cs D₀ o ocs c hv ho hcs hocs hc hoc
        subst hD
        exact hne ⟨rfl, by rw [hold₀, entries_inj hv.mem ho.mem hpos]⟩
  have hfresh : ∀ D v cs c, LiveEntry g d D v → ¬ (D = D₀ ∧ old = some v) →
      Owns g d v.entry.startingCluster cs → c ∈ cs → c ∉ ncs := by
    intro D v cs c hv hne hcs hc hnc
    cases hnew₀ : new with
    | none => simp [hnew' hnew₀] at hnc
    | some n =>
        exact hstay D v cs c hv hne hcs hc ((hnew n hnew₀).2.2 c hnc (hv.owned hcs hc))
  refine ⟨⟨hflag, hzero, hroot, hdots, ?_, ?_⟩, fun c => ⟨?_, ?_⟩⟩
  · intro D v hv
    rcases (hlive D v).1 hv with ⟨hv', -⟩ | ⟨-, hn⟩
    · obtain ⟨cs, hcs, hlen⟩ := h.chain D v hv'
      exact ⟨cs, (howns _ _).2 hcs, hlen⟩
    · exact ⟨ncs, (howns _ _).2 (hnew v hn).1, (hnew v hn).2.1⟩
  · intro D v cs D' v' cs' c hv hv' hcs hcs' hc hc'
    have hcs₀ := (howns _ _).1 hcs
    have hcs₀' := (howns _ _).1 hcs'
    rcases (hlive D v).1 hv with ⟨hl, hne⟩ | ⟨rfl, hn⟩
    · rcases (hlive D' v').1 hv' with ⟨hl', hne'⟩ | ⟨rfl, hn'⟩
      · exact h.disjoint D v cs D' v' cs' c hl hl' hcs₀ hcs₀' hc hc'
      · rw [hcs₀'.unique (hnew v' hn').1] at hc'
        exact absurd hc' (hfresh D v cs c hl hne hcs₀ hc)
    · rcases (hlive D' v').1 hv' with ⟨hl', hne'⟩ | ⟨rfl, hn'⟩
      · rw [hcs₀.unique (hnew v hn).1] at hc
        exact absurd hc (hfresh D' v' cs' c hl' hne' hcs₀' hc')
      · rw [hn] at hn'
        cases hn'
        exact ⟨rfl, rfl⟩
  · rintro ⟨D, v, cs, hv, hcs, hc⟩
    have hcs₀ := (howns _ _).1 hcs
    rcases (hlive D v).1 hv with ⟨hl, hne⟩ | ⟨-, hn⟩
    · exact Or.inl ⟨hl.owned hcs₀ hc, hstay D v cs c hl hne hcs₀ hc⟩
    · rw [hcs₀.unique (hnew v hn).1] at hc
      exact Or.inr hc
  · rintro (⟨⟨D, v, cs, hv, hcs, hc⟩, hoc⟩ | hnc)
    · refine ⟨D, v, cs, (hlive D v).2 (Or.inl ⟨hv, ?_⟩), (howns _ _).2 hcs, hc⟩
      rintro ⟨rfl, ho⟩
      rw [hcs.unique (hold v ho).2] at hc
      exact hoc hc
    · cases hnew₀ : new with
      | none => simp [hnew' hnew₀] at hnc
      | some n =>
          exact ⟨D₀, n, ncs, (hlive D₀ n).2 (Or.inr ⟨rfl, hnew₀⟩), (howns _ _).2 (hnew n hnew₀).1,
            hnc⟩

/-- No visit of a list of entries is met twice. -/
theorem not_mem_of_entries {D : Nat} {vs ts : List Visit} {v : Visit}
    (h : entries g d D = vs ++ v :: ts) : v ∉ vs ++ ts := by
  have hpair := visits_pairwise 0 emptyBuffer (records g d D)
  rw [show visits 0 emptyBuffer (records g d D) = vs ++ v :: ts from h] at hpair
  obtain ⟨-, hts, hvs⟩ := List.pairwise_append.1 hpair
  intro hv
  rcases List.mem_append.1 hv with hv | hv
  · exact absurd (hvs v hv v (List.mem_cons_self ..)) (Nat.lt_irrefl _)
  · exact absurd ((List.pairwise_cons.1 hts).1 v hv) (Nat.lt_irrefl _)

theorem mem_middle {vs ts : List Visit} {o : Option Visit} {v : Visit} :
    v ∈ vs ++ (o.toList ++ ts) ↔ v ∈ vs ++ ts ∨ o = some v := by
  cases o with
  | none => simp
  | some w =>
      simp only [Option.toList_some, List.mem_append, List.mem_singleton, Option.some.injEq]
      rw [eq_comm]
      tauto

section Change

variable {D₀ : Nat} {vs ts : List Visit}

/-- A file entry that is removed, added or replaced leaves the tree as it is. -/
theorem isDir_fileChange {old new : Option Visit}
    (hrec : ∀ D, IsDir g d D → D ≠ D₀ → records g d' D = records g d D)
    (hbefore : entries g d D₀ = vs ++ (old.toList ++ ts))
    (hafter : entries g d' D₀ = vs ++ (new.toList ++ ts))
    (hold : ∀ v ∈ old, v.entry.isDirectory = false)
    (hnew : ∀ v ∈ new, v.entry.isDirectory = false) (D : Nat) :
    IsDir g d' D ↔ IsDir g d D := by
  refine isDir_iff_of_sub fun D hD c => ?_
  unfold Sub
  by_cases hne : D = D₀
  · subst hne
    rw [hbefore, hafter]
    constructor
    · rintro ⟨v, hv, hvdir, hrest⟩
      rcases mem_middle.1 hv with hv | hv
      · exact ⟨v, mem_middle.2 (Or.inl hv), hvdir, hrest⟩
      · rw [hnew v hv] at hvdir
        cases hvdir
    · rintro ⟨v, hv, hvdir, hrest⟩
      rcases mem_middle.1 hv with hv | hv
      · exact ⟨v, mem_middle.2 (Or.inl hv), hvdir, hrest⟩
      · rw [hold v hv] at hvdir
        cases hvdir
  · rw [entries_congr (hrec D hD hne)]

/-- **Files.**  A file entry of directory `D₀` is removed, added or replaced. -/
theorem Sound.fileChange (h : Sound g d) (hD₀ : IsDir g d D₀) (old new : Option Visit)
    (ocs ncs : List Nat) (hfat : ∀ c, g.IsCluster c → fat g d' c = fat g d c)
    (hrec : ∀ D, IsDir g d D → D ≠ D₀ → records g d' D = records g d D)
    (hbefore : entries g d D₀ = vs ++ (old.toList ++ ts))
    (hafter : entries g d' D₀ = vs ++ (new.toList ++ ts))
    (hflag : ∀ r ∈ records g d' D₀, FlagFree r) (hzero : ZeroTail (records g d' D₀))
    (hold : ∀ v ∈ old, v.entry.isDirectory = false ∧ ¬ v.entry.IsDot ∧
      Owns g d v.entry.startingCluster ocs)
    (hold' : old = none → ocs = [])
    (hnew : ∀ v ∈ new, v.entry.isDirectory = false ∧ ¬ v.entry.IsDot ∧
      Owns g d v.entry.startingCluster ncs ∧ ncs.length = chainLength g v.entry ∧
      ∀ c ∈ ncs, Owned g d c → c ∈ ocs)
    (hnew' : new = none → ncs = []) :
    Sound g d' ∧ ∀ c, Owned g d' c ↔ (Owned g d c ∧ c ∉ ocs) ∨ c ∈ ncs := by
  have hent : ∀ D, IsDir g d D → D ≠ D₀ → entries g d' D = entries g d D :=
    fun D hD hne => entries_congr (hrec D hD hne)
  have hmem : ∀ v, v ∈ entries g d D₀ ↔ v ∈ vs ++ ts ∨ old = some v := by
    rw [hbefore]
    exact fun v => mem_middle
  have hmem' : ∀ v, v ∈ entries g d' D₀ ↔ v ∈ vs ++ ts ∨ new = some v := by
    rw [hafter]
    exact fun v => mem_middle
  have hdir : ∀ D, IsDir g d' D ↔ IsDir g d D :=
    isDir_fileChange hrec hbefore hafter (fun v hv => (hold v hv).1) fun v hv => (hnew v hv).1
  have hlive : ∀ D v, LiveEntry g d' D v ↔
      (LiveEntry g d D v ∧ ¬ (D = D₀ ∧ old = some v)) ∨ (D = D₀ ∧ new = some v) := by
    intro D v
    by_cases hne : D = D₀
    · subst hne
      constructor
      · intro hv
        rcases (hmem' v).1 hv.mem with hin | hin
        · refine Or.inl ⟨⟨hD₀, (hmem v).2 (Or.inl hin), hv.not_dot⟩, ?_⟩
          rintro ⟨-, rfl⟩
          exact not_mem_of_entries hbefore hin
        · exact Or.inr ⟨rfl, hin⟩
      · rintro (⟨hv, hne⟩ | ⟨-, hv⟩)
        · rcases (hmem v).1 hv.mem with hin | hin
          · exact ⟨(hdir D).2 hD₀, (hmem' v).2 (Or.inl hin), hv.not_dot⟩
          · exact absurd ⟨rfl, hin⟩ hne
        · exact ⟨(hdir D).2 hD₀, (hmem' v).2 (Or.inr hv), (hnew v hv).2.1⟩
    · constructor
      · intro hv
        have hD := (hdir D).1 hv.isDir
        exact Or.inl ⟨⟨hD, hent D hD hne ▸ hv.mem, hv.not_dot⟩, fun hc => hne hc.1⟩
      · rintro (⟨hv, -⟩ | ⟨hc, -⟩)
        · exact ⟨(hdir D).2 hv.isDir, by rw [hent D hv.isDir hne]; exact hv.mem, hv.not_dot⟩
        · exact absurd hc hne
  -- a dot entry of the new tree is one of the old tree
  have hdot : ∀ D w, IsDir g d D → w ∈ entries g d' D → w.entry.IsDot → w ∈ entries g d D := by
    intro D w hD hw hwdot
    by_cases hne : D = D₀
    · subst hne
      rcases (hmem' w).1 hw with hw | hw
      · exact (hmem w).2 (Or.inl hw)
      · exact absurd hwdot (hnew w hw).2.1
    · rwa [hent D hD hne] at hw
  refine h.change old new ocs ncs hfat hlive (fun v hv => ⟨⟨hD₀, (hmem v).2 (Or.inr hv), (hold v hv).2.1⟩,
    (hold v hv).2.2⟩) hold' (fun v hv => (hnew v hv).2.2) hnew' ?_ ?_ ?_ ?_
  · intro D hD
    by_cases hne : D = D₀
    · rw [hne]
      exact hflag
    · rw [hrec D ((hdir D).1 hD) hne]
      exact h.flagFree D ((hdir D).1 hD)
  · intro D hD
    by_cases hne : D = D₀
    · rw [hne]
      exact hzero
    · rw [hrec D ((hdir D).1 hD) hne]
      exact h.zeroTail D ((hdir D).1 hD)
  · intro w hw hwdot
    exact h.root_dots w (hdot 0 w IsDir.root hw hwdot) hwdot
  · intro P v w hv hvdir hw hwdot
    have hold : LiveEntry g d P v := by
      rcases (hlive P v).1 hv with ⟨hv, -⟩ | ⟨-, hn⟩
      · exact hv
      · rw [(hnew v hn).1] at hvdir
        cases hvdir
    exact h.dots P v w hold hvdir
      (hdot _ w (IsDir.sub hold.isDir hold.mem hvdir hold.not_dot) hw hwdot) hwdot

/-- **Removing a directory.**  The entry `v` of an empty directory is removed. -/
theorem Sound.removeDirectory (h : Sound g d) (hD₀ : IsDir g d D₀) {v : Visit}
    (hfat : ∀ c, g.IsCluster c → fat g d' c = fat g d c)
    (hrec : ∀ D, IsDir g d D → D ≠ D₀ → records g d' D = records g d D)
    (hbefore : entries g d D₀ = vs ++ v :: ts) (hafter : entries g d' D₀ = vs ++ ts)
    (hflag : ∀ r ∈ records g d' D₀, FlagFree r) (hzero : ZeroTail (records g d' D₀))
    (hvdir : v.entry.isDirectory = true) (hvdot : ¬ v.entry.IsDot)
    (hempty : ∀ w ∈ entries g d v.entry.startingCluster, w.entry.IsDot) :
    Sound g d' ∧ (∀ c, Owned g d' c ↔ Owned g d c ∧ c ≠ v.entry.startingCluster) ∧
      ∀ D, IsDir g d' D ↔ IsDir g d D ∧ D ≠ v.entry.startingCluster := by
  have hv : LiveEntry g d D₀ v := ⟨hD₀, by rw [hbefore]; simp, hvdot⟩
  have hcs := h.dirChain hv hvdir
  have hcluster := hcs.isCluster _ (List.mem_singleton_self _)
  have hc₀ : v.entry.startingCluster ≠ D₀ := by
    intro heq
    exact hvdot (hempty v (heq ▸ hv.mem))
  have hent : ∀ D, IsDir g d D → D ≠ D₀ → entries g d' D = entries g d D :=
    fun D hD hne => entries_congr (hrec D hD hne)
  have hmem : ∀ w, w ∈ entries g d D₀ ↔ w ∈ vs ++ ts ∨ w = v := by
    intro w
    rw [hbefore]
    simp only [List.mem_append, List.mem_cons]
    tauto
  -- no other entry names the directory
  have honly : ∀ D w, LiveEntry g d D w → w.entry.isDirectory = true →
      w.entry.startingCluster = v.entry.startingCluster → D = D₀ ∧ w = v := by
    intro D w hw hwdir heq
    have hwcs := h.dirChain hw hwdir
    obtain ⟨hD, hpos⟩ := h.disjoint D w _ D₀ v _ v.entry.startingCluster hw hv hwcs hcs
      (by rw [heq]; exact List.mem_singleton_self _) (List.mem_singleton_self _)
    subst hD
    exact ⟨rfl, entries_inj hw.mem hv.mem hpos⟩
  have hdir : ∀ D, IsDir g d' D ↔ IsDir g d D ∧ D ≠ v.entry.startingCluster := by
    intro D
    constructor
    · intro hD
      induction hD with
      | root => exact ⟨IsDir.root, by have := hcluster.1; omega⟩
      | @sub D w hD hw hwdir hwdot ih =>
          have hw' : w ∈ entries g d D ∧ ¬ (D = D₀ ∧ w = v) := by
            by_cases hne : D = D₀
            · subst hne
              rw [hafter] at hw
              refine ⟨(hmem w).2 (Or.inl hw), ?_⟩
              rintro ⟨-, rfl⟩
              exact not_mem_of_entries hbefore hw
            · rw [hent D ih.1 hne] at hw
              exact ⟨hw, fun hc => hne hc.1⟩
          exact ⟨IsDir.sub ih.1 hw'.1 hwdir hwdot,
            fun heq => hw'.2 (honly D w ⟨ih.1, hw'.1, hwdot⟩ hwdir heq)⟩
    · rintro ⟨hD, hne⟩
      induction hD with
      | root => exact IsDir.root
      | @sub D w hD hw hwdir hwdot ih =>
          have hDne : D ≠ v.entry.startingCluster := by
            rintro rfl
            exact hwdot (hempty w hw)
          refine IsDir.sub (ih hDne) ?_ hwdir hwdot
          by_cases heq : D = D₀
          · subst heq
            rw [hafter]
            rcases (hmem w).1 hw with hw | rfl
            · exact hw
            · exact absurd rfl hne
          · rw [hent D hD heq]
            exact hw
  have hlive : ∀ D w, LiveEntry g d' D w ↔
      (LiveEntry g d D w ∧ ¬ (D = D₀ ∧ some v = some w)) ∨ (D = D₀ ∧ none = some w) := by
    intro D w
    constructor
    · intro hw
      have hD := (hdir D).1 hw.isDir
      by_cases hne : D = D₀
      · subst hne
        have hin := hw.mem
        rw [hafter] at hin
        refine Or.inl ⟨⟨hD.1, (hmem w).2 (Or.inl hin), hw.not_dot⟩, ?_⟩
        rintro ⟨-, heq⟩
        cases heq
        exact not_mem_of_entries hbefore hin
      · exact Or.inl ⟨⟨hD.1, hent D hD.1 hne ▸ hw.mem, hw.not_dot⟩, fun hc => hne hc.1⟩
    · rintro (⟨hw, hne⟩ | ⟨-, hc⟩)
      · have hD : IsDir g d' D := by
          refine (hdir D).2 ⟨hw.isDir, ?_⟩
          rintro rfl
          exact hw.not_dot (hempty w hw.mem)
        refine ⟨hD, ?_, hw.not_dot⟩
        by_cases heq : D = D₀
        · subst heq
          rw [hafter]
          rcases (hmem w).1 hw.mem with hin | rfl
          · exact hin
          · exact absurd ⟨rfl, rfl⟩ hne
        · rw [hent D hw.isDir heq]
          exact hw.mem
      · cases hc
  have hsub : ∀ D w, IsDir g d' D → w ∈ entries g d' D → w ∈ entries g d D := by
    intro D w hD hw
    by_cases heq : D = D₀
    · subst heq
      rw [hafter] at hw
      exact (hmem w).2 (Or.inl hw)
    · rwa [hent D ((hdir D).1 hD).1 heq] at hw
  suffices hchange : Sound g d' ∧ ∀ c, Owned g d' c ↔
      (Owned g d c ∧ c ∉ [v.entry.startingCluster]) ∨ c ∈ [] by
    exact ⟨hchange.1, fun c => by simp [hchange.2 c], hdir⟩
  refine h.change (some v) none [v.entry.startingCluster] [] hfat hlive
    (by rintro w ⟨⟩; exact ⟨hv, hcs⟩) (by simp) (by simp) (by simp) ?_ ?_ ?_ ?_
  · intro D hD
    by_cases hne : D = D₀
    · rw [hne]
      exact hflag
    · rw [hrec D ((hdir D).1 hD).1 hne]
      exact h.flagFree D ((hdir D).1 hD).1
  · intro D hD
    by_cases hne : D = D₀
    · rw [hne]
      exact hzero
    · rw [hrec D ((hdir D).1 hD).1 hne]
      exact h.zeroTail D ((hdir D).1 hD).1
  · exact fun w hw => h.root_dots w (hsub 0 w IsDir.root hw)
  · intro P u w hu hudir hw hwdot
    have hu' : LiveEntry g d P u := by
      rcases (hlive P u).1 hu with ⟨hu, -⟩ | ⟨-, hc⟩
      · exact hu
      · cases hc
    exact h.dots P u w hu' hudir
      (hsub _ w (IsDir.sub hu.isDir hu.mem hudir hu.not_dot) hw) hwdot

/-- **Adding a directory.**  An entry for the stray cluster of a new directory, which has
only dot entries, is added. -/
theorem Sound.addDirectory (h : Sound g d) (hD₀ : IsDir g d D₀) {v : Visit}
    (hfat : ∀ c, g.IsCluster c → fat g d' c = fat g d c)
    (hrec : ∀ D, IsDir g d D → D ≠ D₀ → records g d' D = records g d D)
    (hbefore : entries g d D₀ = vs ++ ts) (hafter : entries g d' D₀ = vs ++ v :: ts)
    (hflag : ∀ r ∈ records g d' D₀, FlagFree r) (hzero : ZeroTail (records g d' D₀))
    (hvdir : v.entry.isDirectory = true) (hvdot : ¬ v.entry.IsDot)
    (hcs : Owns g d v.entry.startingCluster [v.entry.startingCluster])
    (hown : ¬ Owned g d v.entry.startingCluster)
    (hflag' : ∀ r ∈ records g d' v.entry.startingCluster, FlagFree r)
    (hzero' : ZeroTail (records g d' v.entry.startingCluster))
    (hempty : ∀ w ∈ entries g d' v.entry.startingCluster,
      w.entry.IsDot ∧ DotEntry D₀ v.entry.startingCluster w) :
    Sound g d' ∧ (∀ c, Owned g d' c ↔ Owned g d c ∨ c = v.entry.startingCluster) ∧
      ∀ D, IsDir g d' D ↔ IsDir g d D ∨ D = v.entry.startingCluster := by
  have hcluster := hcs.isCluster _ (List.mem_singleton_self _)
  have hnotdir : ¬ IsDir g d v.entry.startingCluster := fun hc =>
    hown (h.owned_dir hc (by have := hcluster.1; omega))
  have hc₀ : v.entry.startingCluster ≠ D₀ := fun heq => hnotdir (heq ▸ hD₀)
  have hent : ∀ D, IsDir g d D → D ≠ D₀ → entries g d' D = entries g d D :=
    fun D hD hne => entries_congr (hrec D hD hne)
  have hmem' : ∀ w, w ∈ entries g d' D₀ ↔ w ∈ entries g d D₀ ∨ w = v := by
    intro w
    rw [hafter, hbefore]
    simp only [List.mem_append, List.mem_cons]
    tauto
  have hdir : ∀ D, IsDir g d' D ↔ IsDir g d D ∨ D = v.entry.startingCluster := by
    have hle : ∀ D, IsDir g d D → IsDir g d' D := by
      intro D hD
      induction hD with
      | root => exact IsDir.root
      | @sub D w hD hw hwdir hwdot ih =>
          refine IsDir.sub ih ?_ hwdir hwdot
          by_cases heq : D = D₀
          · subst heq
            exact (hmem' w).2 (Or.inl hw)
          · rw [hent D hD heq]
            exact hw
    intro D
    constructor
    · intro hD
      induction hD with
      | root => exact Or.inl IsDir.root
      | @sub D w hD hw hwdir hwdot ih =>
          rcases ih with ih | rfl
          · by_cases heq : D = D₀
            · subst heq
              rcases (hmem' w).1 hw with hw | rfl
              · exact Or.inl (IsDir.sub ih hw hwdir hwdot)
              · exact Or.inr rfl
            · rw [hent D ih heq] at hw
              exact Or.inl (IsDir.sub ih hw hwdir hwdot)
          · exact absurd (hempty w hw).1 hwdot
    · rintro (hD | rfl)
      · exact hle D hD
      · exact IsDir.sub (hle D₀ hD₀) ((hmem' v).2 (Or.inr rfl)) hvdir hvdot
  have hlive : ∀ D w, LiveEntry g d' D w ↔
      (LiveEntry g d D w ∧ ¬ (D = D₀ ∧ none = some w)) ∨ (D = D₀ ∧ some v = some w) := by
    intro D w
    constructor
    · intro hw
      rcases (hdir D).1 hw.isDir with hD | rfl
      · by_cases hne : D = D₀
        · subst hne
          rcases (hmem' w).1 hw.mem with hin | rfl
          · exact Or.inl ⟨⟨hD, hin, hw.not_dot⟩, by simp⟩
          · exact Or.inr ⟨rfl, rfl⟩
        · exact Or.inl ⟨⟨hD, hent D hD hne ▸ hw.mem, hw.not_dot⟩, by simp⟩
      · exact absurd (hempty w hw.mem).1 hw.not_dot
    · rintro (⟨hw, -⟩ | ⟨rfl, heq⟩)
      · refine ⟨(hdir D).2 (Or.inl hw.isDir), ?_, hw.not_dot⟩
        by_cases heq : D = D₀
        · subst heq
          exact (hmem' w).2 (Or.inl hw.mem)
        · rw [hent D hw.isDir heq]
          exact hw.mem
      · cases heq
        exact ⟨(hdir D).2 (Or.inl hD₀), (hmem' v).2 (Or.inr rfl), hvdot⟩
  have hdot : ∀ D w, IsDir g d D → w ∈ entries g d' D → w.entry.IsDot → w ∈ entries g d D := by
    intro D w hD hw hwdot
    by_cases heq : D = D₀
    · subst heq
      rcases (hmem' w).1 hw with hw | rfl
      · exact hw
      · exact absurd hwdot hvdot
    · rwa [hent D hD heq] at hw
  suffices hchange : Sound g d' ∧ ∀ c, Owned g d' c ↔
      (Owned g d c ∧ c ∉ []) ∨ c ∈ [v.entry.startingCluster] by
    exact ⟨hchange.1, fun c => by simp [hchange.2 c], hdir⟩
  refine h.change none (some v) [] [v.entry.startingCluster] hfat hlive (by simp) (by simp)
    (by
      rintro w ⟨⟩
      refine ⟨hcs, by rw [chainLength, if_pos hvdir]; rfl, fun c hc ho => ?_⟩
      rw [List.mem_singleton.1 hc] at ho
      exact absurd ho hown) (by simp) ?_ ?_ ?_ ?_
  · intro D hD
    rcases (hdir D).1 hD with hD | rfl
    · by_cases hne : D = D₀
      · rw [hne]
        exact hflag
      · rw [hrec D hD hne]
        exact h.flagFree D hD
    · exact hflag'
  · intro D hD
    rcases (hdir D).1 hD with hD | rfl
    · by_cases hne : D = D₀
      · rw [hne]
        exact hzero
      · rw [hrec D hD hne]
        exact h.zeroTail D hD
    · exact hzero'
  · exact fun w hw hwdot => h.root_dots w (hdot 0 w IsDir.root hw hwdot) hwdot
  · intro P u w hu hudir hw hwdot
    rcases (hlive P u).1 hu with ⟨hu', -⟩ | ⟨rfl, heq⟩
    · exact h.dots P u w hu' hudir
        (hdot _ w (IsDir.sub hu'.isDir hu'.mem hudir hu'.not_dot) hw hwdot) hwdot
    · cases heq
      exact (hempty w hw).2

end Change

end Fat16

end BenmoshOS
