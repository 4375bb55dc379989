import BenmoshOS.Fat16.Slots

/-!
# FAT16: the directory tree and the ownership of clusters

* `IsDir` — the directories that can be reached from the root; `LiveEntry` — their
  entries other than `.` and `..`.
* `Sound g d` — every live entry owns a chain of the length its size asks for, and no
  cluster has two owners.
* `resolvePath_clean` — on a sound volume path resolution walks the tree.
-/

namespace BenmoshOS

namespace Fat16

variable {env : Env} {g : Geometry} {d d' : Disk}

/-! ## Sectors of directories -/

/-- A cluster number of a directory: the root or a data cluster. -/
def DirNumber (D : Nat) : Prop := D = 0 ∨ 2 ≤ D

theorem Geometry.rootDirSector_le_dirBase (g : Geometry) (D : Nat) :
    g.rootDirSector ≤ dirBase g D := by
  have := g.dataStartSector_eq
  unfold dirBase Geometry.clusterLba
  split <;> omega

/-- Sectors of different clusters are different. -/
theorem clusterLba_inj {c c' s s' : Nat} (hc : 2 ≤ c) (hc' : 2 ≤ c') (hs : s < g.sectorsPerCluster)
    (hs' : s' < g.sectorsPerCluster) (h : g.clusterLba c + s = g.clusterLba c' + s') : c = c' := by
  unfold Geometry.clusterLba at h
  have heq : (c - 2) * g.sectorsPerCluster + s = (c' - 2) * g.sectorsPerCluster + s' := by omega
  have h₁ : ((c - 2) * g.sectorsPerCluster + s) / g.sectorsPerCluster = c - 2 := by
    rw [Nat.mul_comm, Nat.mul_add_div g.sectorsPerCluster_pos, Nat.div_eq_of_lt hs, Nat.add_zero]
  have h₂ : ((c' - 2) * g.sectorsPerCluster + s') / g.sectorsPerCluster = c' - 2 := by
    rw [Nat.mul_comm, Nat.mul_add_div g.sectorsPerCluster_pos, Nat.div_eq_of_lt hs', Nat.add_zero]
  rw [heq] at h₁
  omega

/-- `lba` is a sector of directory `D`. -/
def DirSector (g : Geometry) (D lba : Nat) : Prop :=
  dirBase g D ≤ lba ∧ lba < dirBase g D + dirSectors g D

theorem DirSector.eq {D D' lba : Nat} (hD : DirNumber D) (hD' : DirNumber D')
    (h : DirSector g D lba) (h' : DirSector g D' lba) : D = D' := by
  have hdata := g.dataStartSector_eq
  unfold DirSector dirBase dirSectors at h h'
  rcases hD with rfl | hD
  · rcases hD' with rfl | hD'
    · rfl
    · rw [if_pos rfl, if_pos rfl] at h
      rw [if_neg (by omega), if_neg (by omega)] at h'
      unfold Geometry.clusterLba at h'
      omega
  · rw [if_neg (by omega), if_neg (by omega)] at h
    rcases hD' with rfl | hD'
    · rw [if_pos rfl, if_pos rfl] at h'
      unfold Geometry.clusterLba at h
      omega
    · rw [if_neg (by omega), if_neg (by omega)] at h'
      have hs : lba - g.clusterLba D < g.sectorsPerCluster := by omega
      have hs' : lba - g.clusterLba D' < g.sectorsPerCluster := by omega
      exact clusterLba_inj hD hD' hs hs' (by omega)

theorem records_congr {D : Nat} (h : ∀ lba, DirSector g D lba → d' lba = d lba) :
    records g d' D = records g d D := by
  unfold records slots
  refine List.map_congr_left fun p hp => ?_
  have hp' := List.mem_range'_1.1 hp
  unfold slotAt
  rw [h _ ⟨by omega, by omega⟩]

/-! ## The directory tree -/

/-- The test of `empty_check_callback` for `.` and `..`. -/
def Record.IsDot (r : Record) : Prop := r 0 = dot ∧ (r 1 = space ∨ (r 1 = dot ∧ r 2 = space))

instance (r : Record) : Decidable r.IsDot := inferInstanceAs (Decidable (_ ∧ _))

/-- The directories of the volume. -/
inductive IsDir (g : Geometry) (d : Disk) : Nat → Prop where
  | root : IsDir g d 0
  | sub {D : Nat} {v : Visit} (hD : IsDir g d D) (hv : v ∈ entries g d D)
      (hdir : v.entry.isDirectory = true) (hdot : ¬ v.entry.IsDot) :
      IsDir g d v.entry.startingCluster

/-- An entry of the volume other than `.` and `..`. -/
structure LiveEntry (g : Geometry) (d : Disk) (D : Nat) (v : Visit) : Prop where
  isDir : IsDir g d D
  mem : v ∈ entries g d D
  not_dot : ¬ v.entry.IsDot

/-- The number of clusters an entry has to own. -/
def chainLength (g : Geometry) (r : Record) : Nat :=
  if r.isDirectory then 1 else (r.fileSize + g.clusterBytes - 1) / g.clusterBytes

/-- The entry `w` of directory `c` is its `.` or its `..`, which names `P`. -/
structure DotEntry (P c : Nat) (w : Visit) : Prop where
  isDirectory : w.entry.isDirectory = true
  target : (w.entry.startingCluster = c ∧ ∀ n, w.Matches n → n = [dot]) ∨
    w.entry.startingCluster = P

/-- The cluster belongs to the chain of a live entry. -/
def Owned (g : Geometry) (d : Disk) (c : Nat) : Prop :=
  ∃ D v cs, LiveEntry g d D v ∧ Owns g d v.entry.startingCluster cs ∧ c ∈ cs

/-- The directory tree is well formed, every live entry owns a chain of the length its
size asks for, and no cluster has two owners. -/
structure Sound (g : Geometry) (d : Disk) : Prop where
  flagFree : ∀ D, IsDir g d D → ∀ r ∈ records g d D, FlagFree r
  zeroTail : ∀ D, IsDir g d D → ZeroTail (records g d D)
  root_dots : ∀ v ∈ entries g d 0, ¬ v.entry.IsDot
  dots : ∀ P v w, LiveEntry g d P v → v.entry.isDirectory = true →
    w ∈ entries g d v.entry.startingCluster → w.entry.IsDot →
    DotEntry P v.entry.startingCluster w
  chain : ∀ D v, LiveEntry g d D v →
    ∃ cs, Owns g d v.entry.startingCluster cs ∧ cs.length = chainLength g v.entry
  disjoint : ∀ D v cs D' v' cs' c, LiveEntry g d D v → LiveEntry g d D' v' →
    Owns g d v.entry.startingCluster cs → Owns g d v'.entry.startingCluster cs' →
    c ∈ cs → c ∈ cs' → D = D' ∧ v.pos = v'.pos

/-! ### Positions -/

theorem visits_pos_le {p : Nat} {b : Nat → UInt8} {rs : List Record} {v : Visit}
    (h : v ∈ visits p b rs) : p ≤ v.pos ∧ v.pos < p + rs.length := by
  obtain ⟨xs, ys, rfl, hpos, -⟩ := visits_split h
  simp only [List.length_append, List.length_cons]
  omega

theorem visits_pairwise (p : Nat) (b : Nat → UInt8) (rs : List Record) :
    (visits p b rs).Pairwise fun v w => v.pos < w.pos := by
  induction rs generalizing p b with
  | nil => exact List.Pairwise.nil
  | cons r rs ih =>
      by_cases h₀ : r 0 = 0x00
      · rw [visits_end h₀]
        exact List.Pairwise.nil
      · by_cases he : r.IsEntry
        · rw [visits_entry he]
          refine List.pairwise_cons.2 ⟨fun v hv => ?_, ih _ _⟩
          have := (visits_pos_le hv).1
          change p < v.pos
          omega
        · rw [visits_skip h₀ he]
          exact ih _ _

/-- An entry is determined by its position. -/
theorem entries_inj {D : Nat} {v w : Visit} (hv : v ∈ entries g d D) (hw : w ∈ entries g d D)
    (h : v.pos = w.pos) : v = w := by
  have hpair := List.pairwise_iff_getElem.1 (visits_pairwise 0 emptyBuffer (records g d D))
  obtain ⟨i, hi, rfl⟩ := List.getElem_of_mem hv
  obtain ⟨j, hj, rfl⟩ := List.getElem_of_mem hw
  rcases Nat.lt_trichotomy i j with hlt | heq | hgt
  · exact absurd h (Nat.ne_of_lt (hpair i j hi hj hlt))
  · simp only [heq]
  · exact absurd h (Nat.ne_of_gt (hpair j i hj hi hgt))

theorem pos_lt_slots {D : Nat} {v : Visit} (h : v ∈ entries g d D) :
    v.pos < 16 * dirSectors g D := by
  have := (visits_pos_le h).2
  rwa [Nat.zero_add, records, length_slots] at this

/-! ### Chains of live entries -/

namespace Sound

/-- A directory other than the root is the cluster of a live entry. -/
theorem parent {D : Nat} (hD : IsDir g d D) (h₀ : D ≠ 0) :
    ∃ P v, LiveEntry g d P v ∧ v.entry.isDirectory = true ∧ v.entry.startingCluster = D := by
  cases hD with
  | root => exact absurd rfl h₀
  | sub hP hv hdir hdot => exact ⟨_, _, ⟨hP, hv, hdot⟩, hdir, rfl⟩

/-- The chain of a directory is its one cluster. -/
theorem dirChain (h : Sound g d) {P : Nat} {v : Visit} (hv : LiveEntry g d P v)
    (hdir : v.entry.isDirectory = true) :
    Owns g d v.entry.startingCluster [v.entry.startingCluster] := by
  obtain ⟨cs, hcs, hlen⟩ := h.chain P v hv
  rw [chainLength, if_pos hdir] at hlen
  obtain ⟨c, rfl⟩ := List.length_eq_one_iff.1 hlen
  rcases hcs.chain with ⟨hnil, -⟩ | ⟨-, hc⟩
  · simp at hnil
  · rw [hc.1] at hcs ⊢
    exact hcs

theorem isCluster (h : Sound g d) {D : Nat} (hD : IsDir g d D) (h₀ : D ≠ 0) :
    g.IsCluster D ∧ Eof (fat g d D) := by
  obtain ⟨P, v, hv, hdir, rfl⟩ := parent hD h₀
  have hcs := h.dirChain hv hdir
  refine ⟨hcs.isCluster _ (List.mem_singleton_self _), ?_⟩
  rcases hcs.chain with ⟨hnil, -⟩ | ⟨-, hc⟩
  · simp at hnil
  · exact hc.2.2

theorem dirNumber (h : Sound g d) {D : Nat} (hD : IsDir g d D) : DirNumber D := by
  by_cases h₀ : D = 0
  · exact Or.inl h₀
  · exact Or.inr (h.isCluster hD h₀).1.1

theorem scannable (hg : g.Valid) (h : Sound g d) {D : Nat} (hD : IsDir g d D) :
    Scannable g d D := by
  refine ⟨?_, h.flagFree D hD⟩
  by_cases h₀ : D = 0
  · exact Or.inl h₀
  · obtain ⟨hc, heof⟩ := h.isCluster hD h₀
    have := IsCluster.lt_reserved hg hc
    exact Or.inr ⟨hc.1, by omega, heof⟩

/-- Every entry that names a directory leads to one, also `.` and `..`. -/
theorem isDir_of_entry (h : Sound g d) {D : Nat} {v : Visit} (hD : IsDir g d D)
    (hv : v ∈ entries g d D) (hdir : v.entry.isDirectory = true) :
    IsDir g d v.entry.startingCluster := by
  by_cases hdot : v.entry.IsDot
  · by_cases h₀ : D = 0
    · subst h₀
      exact absurd hdot (h.root_dots v hv)
    · obtain ⟨P, u, hu, hudir, rfl⟩ := parent hD h₀
      rcases (h.dots P u v hu hudir hv hdot).target with ⟨ht, -⟩ | ht
      · rw [ht]
        exact hD
      · rw [ht]
        exact hu.isDir
  · exact IsDir.sub hD hv hdir hdot

/-- The entries of a chain are links or an end mark, never zero. -/
theorem fat_ne_zero_of_chain {v : Nat} {cs : List Nat} (h : Chain (fat g d) Eof v cs)
    (hcs : ∀ c ∈ cs, g.IsCluster c) : ∀ c ∈ cs, fat g d c ≠ 0 := by
  induction cs generalizing v with
  | nil => simp
  | cons a cs ih =>
      intro c hc
      rcases List.mem_cons.1 hc with rfl | hc
      · cases cs with
        | nil =>
            have : 0xFFF8 ≤ fat g d c := h.2.2
            omega
        | cons b cs =>
            have hb := (hcs b (by simp)).1
            rw [h.2.2.1]
            omega
      · exact ih h.2.2 (fun c hc => hcs c (List.mem_cons_of_mem _ hc)) c hc

end Sound

theorem Owns.fat_ne_zero {start : Nat} {cs : List Nat} (h : Owns g d start cs) :
    ∀ c ∈ cs, fat g d c ≠ 0 := by
  rcases h.chain with ⟨rfl, -⟩ | ⟨-, hc⟩
  · simp
  · exact Sound.fat_ne_zero_of_chain hc h.isCluster

/-! ## Path resolution -/

/-- A name path resolution can hand out for a path. -/
structure Component (path : List UInt8) (name : Name) : Prop where
  ne_nil : name ≠ []
  ne_dot : name ≠ [dot]
  length_le : name.length ≤ 255
  subset : ∀ c ∈ name, c ∈ path

/-- The result of a resolution: a directory with a name, or an error. -/
def Resolved (g : Geometry) (d : Disk) (path : List UInt8) : Except Int (Nat × Name) → Prop
  | .ok (D, name) => IsDir g d D ∧ Component path name
  | .error e => e < 0

theorem resolveFrom_clean (hg : env.geom.Valid) (hfuel : 2 ≤ env.fuel)
    (h : Sound env.geom d) : ∀ (n D : Nat) (path : List UInt8), IsDir env.geom d D →
      ∃ r, resolveFrom n D path env (clean d) = .ret (r, clean d) ∧
        Resolved env.geom d path r := by
  intro n
  induction n with
  | zero => intro D path _; exact ⟨_, rfl, show -einval < 0 by decide⟩
  | succ n ih =>
      intro D path hD
      -- what is left of the path behind a component is a part of it
      have hrest : ∀ (m : Nat) (c : UInt8), c ∈ (path.drop m).dropWhile (· = slash) → c ∈ path :=
        fun m c hc => List.mem_of_mem_drop ((List.dropWhile_suffix _).subset hc)
      have hstep : ∀ (m D : Nat), IsDir env.geom d D →
          ∃ r, resolveFrom n D ((path.drop m).dropWhile (· = slash)) env (clean d) =
            .ret (r, clean d) ∧ Resolved env.geom d path r := by
        intro m D hD
        obtain ⟨r, hr, hres⟩ := ih D ((path.drop m).dropWhile (· = slash)) hD
        refine ⟨r, hr, ?_⟩
        match r, hres with
        | .error e, he => exact he
        | .ok (D', name), ⟨hD', hname⟩ =>
            exact ⟨hD', hname.ne_nil, hname.ne_dot, hname.length_le,
              fun c hc => hrest m c (hname.subset c hc)⟩
      have hscan := h.scannable hg hD
      have hfind := fun site => findInDir_clean site hscan.flat hfuel hscan.flagFree
      unfold resolveFrom
      dsimp only
      split
      · exact ⟨_, rfl, show -einval < 0 by decide⟩
      · split
        · exact hstep _ D hD
        · rename_i hne hdot
          split
          · simp only [Fs.bind_apply, hfind, Exec.ret_bind]
            cases hl : lookup env.geom d D ((path.takeWhile (· ≠ slash)).take 255) with
            | none => exact ⟨_, rfl, show -enoent < 0 by decide⟩
            | some v =>
                simp only [Option.map_some, Visit.found]
                have hv : v ∈ entries env.geom d D := List.mem_of_find?_eq_some hl
                split
                · rename_i hdir
                  exact hstep _ _ (h.isDir_of_entry hD hv hdir)
                · exact ⟨_, rfl, show -enotdir < 0 by decide⟩
          · split
            · exact ⟨_, rfl, show -einval < 0 by decide⟩
            · rename_i hnil
              simp only [Fs.bind_apply, hfind, Exec.ret_bind, Fs.pure_apply]
              refine ⟨_, rfl, hD, hnil, hdot, ?_, fun c hc => ?_⟩
              · rw [List.length_take]
                omega
              · exact (List.takeWhile_prefix _).subset (List.mem_of_mem_take hc)

/-- **Path resolution.**  On a sound volume it ends in a directory of the tree and a
component of the path, or in an error, and it writes nothing. -/
theorem resolvePath_clean (hg : env.geom.Valid) (hfuel : 2 ≤ env.fuel)
    (h : Sound env.geom d) (path : List UInt8) :
    ∃ r, resolvePath path env (clean d) = .ret (r, clean d) ∧
      Resolved env.geom d (cString path) r := by
  unfold resolvePath
  dsimp only
  split
  · exact ⟨_, rfl, show -einval < 0 by decide⟩
  · split
    · obtain ⟨r, hr, hres⟩ := resolveFrom_clean hg hfuel h (cString path).tail.length 0
        (cString path).tail IsDir.root
      refine ⟨r, hr, ?_⟩
      match r, hres with
      | .error e, he => exact he
      | .ok (D, name), ⟨hD, hname⟩ =>
          exact ⟨hD, hname.ne_nil, hname.ne_dot, hname.length_le,
            fun c hc => List.mem_of_mem_tail (hname.subset c hc)⟩
    · exact resolveFrom_clean hg hfuel h _ 0 _ IsDir.root

end Fat16

end BenmoshOS
