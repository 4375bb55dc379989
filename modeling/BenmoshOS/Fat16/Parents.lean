import BenmoshOS.Fat16.NameMap

/-!
# FAT16: parent links

A path goes back up through the record `..` that `fat16_make_directory` has written at the
beginning of a directory.

* `EntryChange` — what a call does to the entries of a volume: one of them is removed, added or
  replaced.
* `Parented` — every directory begins with a `..` that names its parent; calls that succeed keep
  this (`Call.parented`).
* `yields_behind` — a path behind a directory is resolved from that directory on.
* `parent_links` — a path that goes down and up again leads where it would without the detour.
-/

namespace BenmoshOS

namespace Fat16

open Exec (Yields Halts)
open Fs

variable {g : Geometry} {d d' : Disk} {kmalloc : Nat → Option (Nat → UInt8)} {D P c : Nat}

/-! ## Changes of one entry -/

/-- Directory `c` begins with its `.` and with a `..` that names `P`. -/
def HasDots (g : Geometry) (d : Disk) (P c : Nat) : Prop :=
  ∃ ts, entries g d c =
    ⟨0, emptyBuffer, dotRecord [dot] c⟩ :: ⟨1, emptyBuffer, dotRecord [dot, dot] P⟩ :: ts

/-- Every directory of the tree begins with a `..` that names the directory it was made in. -/
def Parented (g : Geometry) (d : Disk) : Prop :=
  ∀ P v, LiveEntry g d P v → v.entry.isDirectory = true → HasDots g d P v.entry.startingCluster

/-- One entry of directory `D` is removed, added or replaced, and the other directories keep
theirs.  A directory that is added is empty but for its dots. -/
structure EntryChange (g : Geometry) (d d' : Disk) (D : Nat) (vs ts : List Visit)
    (old new : Option Visit) : Prop where
  before : entries g d D = vs ++ (old.toList ++ ts)
  after : entries g d' D = vs ++ (new.toList ++ ts)
  others : ∀ P, IsDir g d P → P ≠ D → entries g d' P = entries g d P
  old_not_dot : ∀ v ∈ old, ¬ v.entry.IsDot
  new_dots : ∀ v ∈ new, v.entry.isDirectory = true → HasDots g d' D v.entry.startingCluster ∧
    ∀ w ∈ entries g d' v.entry.startingCluster, w.entry.IsDot

section Change

variable {vs ts : List Visit} {old new : Option Visit}

/-- A directory keeps its first two entries. -/
theorem HasDots.change (h : HasDots g d P D) (hchange : EntryChange g d d' D vs ts old new) :
    HasDots g d' P D := by
  obtain ⟨rest, hrest⟩ := h
  have hbefore := hrest.symm.trans hchange.before
  have hafter := hchange.after
  have hsorted := visits_pairwise 0 emptyBuffer (records g d' D)
  rw [show visits 0 emptyBuffer (records g d' D) = _ from hafter] at hsorted
  rcases vs with _ | ⟨v₀, _ | ⟨v₁, vs⟩⟩
  · rcases old with _ | v
    · rcases new with _ | w
      · exact ⟨rest, hafter.trans hbefore.symm⟩
      · -- the new entry would stand in front of position 0
        have hts : ts = _ := hbefore.symm
        rw [hts] at hsorted
        have hlt := (List.pairwise_cons.1 hsorted).1 _ (List.mem_cons_self ..)
        exact absurd hlt (Nat.not_lt_zero _)
    · obtain ⟨hv, -⟩ := List.cons.inj hbefore
      exact absurd (hv ▸ isDot_dotRecord (Or.inl rfl)) (hchange.old_not_dot v rfl)
  · obtain ⟨hv₀, htail⟩ := List.cons.inj hbefore
    rcases old with _ | v
    · rcases new with _ | w
      · exact ⟨rest, hafter.trans hbefore.symm⟩
      · -- the new entry would stand between the positions 0 and 1
        have hts : ts = _ := htail.symm
        rw [hts, ← hv₀] at hsorted
        obtain ⟨hfirst, hsorted⟩ := List.pairwise_cons.1 hsorted
        have hlt : 0 < w.pos := hfirst w (List.mem_cons_self ..)
        have hlt' : w.pos < 1 := (List.pairwise_cons.1 hsorted).1 _ (List.mem_cons_self ..)
        omega
    · obtain ⟨hv, -⟩ := List.cons.inj htail
      exact absurd (hv ▸ isDot_dotRecord (Or.inr rfl)) (hchange.old_not_dot v rfl)
  · obtain ⟨rfl, htail⟩ := List.cons.inj hbefore
    obtain ⟨rfl, -⟩ := List.cons.inj htail
    exact ⟨_, hafter⟩

/-- The directories after a change: those before, and the one that has been added. -/
theorem IsDir.of_change (hchange : EntryChange g d d' D vs ts old new) (hP : IsDir g d' P) :
    IsDir g d P ∨ ∀ w ∈ entries g d' P, w.entry.IsDot := by
  induction hP with
  | root => exact Or.inl .root
  | @sub Q v _ hv hdir hdot ih =>
      rcases ih with hQ | hdots
      · by_cases hne : Q = D
        · subst hne
          rw [hchange.after] at hv
          rcases mem_middle.1 hv with hv | hnew
          · refine Or.inl (.sub hQ ?_ hdir hdot)
            rw [hchange.before]
            exact mem_middle.2 (Or.inl hv)
          · exact Or.inr (hchange.new_dots v hnew hdir).2
        · rw [hchange.others Q hQ hne] at hv
          exact Or.inl (.sub hQ hv hdir hdot)
      · exact absurd (hdots v hv) hdot

/-- **One change** keeps the parent links. -/
theorem Parented.change (h : Parented g d) (hchange : EntryChange g d d' D vs ts old new) :
    Parented g d' := by
  intro P v hv hdir
  have hkeep : LiveEntry g d P v → HasDots g d' P v.entry.startingCluster := by
    intro hlive
    have hdots := h P v hlive hdir
    by_cases hne : v.entry.startingCluster = D
    · rw [hne] at hdots ⊢
      exact hdots.change hchange
    · obtain ⟨rest, hrest⟩ := hdots
      have hsub := IsDir.sub hlive.isDir hlive.mem hdir hlive.not_dot
      exact ⟨rest, (hchange.others _ hsub hne).trans hrest⟩
  rcases hv.isDir.of_change hchange with hP | hdots
  · have hmem := hv.mem
    by_cases hne : P = D
    · subst hne
      rw [hchange.after] at hmem
      rcases mem_middle.1 hmem with hmem | hnew
      · refine hkeep ⟨hP, ?_, hv.not_dot⟩
        rw [hchange.before]
        exact mem_middle.2 (Or.inl hmem)
      · exact (hchange.new_dots v hnew hdir).1
    · rw [hchange.others P hP hne] at hmem
      exact hkeep ⟨hP, hmem, hv.not_dot⟩
  · exact absurd (hdots v hv.mem) hv.not_dot

end Change

/-! ## Calls -/

section Calls

variable {name : Name} {v : Visit}

/-- The entries of the directories are as before. -/
theorem entryChange_frame (h : ∀ P, IsDir g d P → records g d' P = records g d P) :
    EntryChange g d d' 0 [] (entries g d 0) none none where
  before := rfl
  after := entries_congr (h 0 .root)
  others P hP _ := entries_congr (h P hP)
  old_not_dot v hv := absurd hv (by simp)
  new_dots v hv := absurd hv (by simp)

/-- A new entry is inserted; a new directory has been prepared. -/
theorem Inserted.entryChange (h : Sound g d) (hD : IsDir g d D) (hname : Ascii name)
    (hlen : name.length ≤ 255) {attributes : UInt8} {cluster size : Nat}
    (hlfn : attributes ≠ attrLfn) (hlabel : attributes ≠ attrVolumeId) (hcluster : cluster < 65536)
    (hins : Inserted g d D name attributes cluster size d')
    (hdots : attributes &&& attrDirectory ≠ 0 → 2 ≤ cluster ∧ cluster ≠ D ∧
      entries g d cluster =
        [⟨0, emptyBuffer, dotRecord [dot] cluster⟩, ⟨1, emptyBuffer, dotRecord [dot, dot] D⟩]) :
    ∃ vs ts new, EntryChange g d d' D vs ts none (some new) ∧ ¬ new.entry.IsDot ∧
      new.entry.attributes = attributes ∧ (size < 2 ^ 32 → new.entry.fileSize = size) := by
  obtain ⟨attempt, p, vs, ts, hspec⟩ := hins.spec (h.zeroTail D hD) hname hlen hlfn hlabel
  refine ⟨vs, ts, _, ⟨hspec.before, hspec.after, fun P hP hne => entries_congr ?_, by simp, ?_⟩,
    sfnRecord_not_dot hname attempt, attributes_sfnRecord, fileSize_sfnRecord⟩
  · exact records_of_ne (h.dirNumber hD) (h.dirNumber hP) hne fun lba hlba => hspec.outside' hlba
  · rintro w ⟨⟩ hdir
    dsimp only at hdir ⊢
    rw [Record.isDirectory, attributes_sfnRecord] at hdir
    obtain ⟨htwo, hne, hempty⟩ := hdots (by simpa using hdir)
    have hsame : entries g d' cluster = entries g d cluster := entries_congr
      (records_of_ne (h.dirNumber hD) (Or.inr htwo) hne fun lba hlba => hspec.outside' hlba)
    rw [startingCluster_sfnRecord hcluster]
    refine ⟨⟨[], hsame.trans hempty⟩, fun w hw => ?_⟩
    rw [hsame, hempty] at hw
    rcases List.mem_cons.1 hw with rfl | hw
    · exact isDot_dotRecord (Or.inl rfl)
    · rw [List.mem_singleton.1 hw]
      exact isDot_dotRecord (Or.inr rfl)

/-- A file is inserted. -/
theorem Inserted.file_parented (h : Sound g d) (hp : Parented g d) (hD : IsDir g d D)
    (hname : Ascii name) (hlen : name.length ≤ 255)
    (hins : Inserted g d D name attrArchive 0 0 d') : Parented g d' := by
  obtain ⟨vs, ts, new, hchange, -⟩ := hins.entryChange h hD hname hlen (by decide) (by decide)
    (by decide) fun hdir => absurd rfl hdir
  exact hp.change hchange

/-- A directory is made. -/
theorem Inserted.directory_parented (hg : g.Valid) (h : Sound g d) (hp : Parented g d)
    (hD : IsDir g d D) (hc : LeastFree g d c) (hname : Ascii name) (hlen : name.length ≤ 255)
    (hins : Inserted g (prepared g d c D) D name attrDirectory c 0 d') : Parented g d' := by
  have hprep := prepared_spec (P := D) hg h hc
  have hc2 := hc.isCluster.1
  have hlt := IsCluster.lt_reserved hg hc.isCluster
  have hcD : c ≠ D := by
    rintro rfl
    exact hc.not_owned (h.owned_dir hD (by omega))
  obtain ⟨vs, ts, new, hchange, -⟩ := hins.entryChange hprep.sound (hprep.isDir D hD) hname hlen
    (by decide) (by decide) (by omega) fun _ => ⟨hc2, hcD, entries_newDirDisk hc2⟩
  exact (hp.change (entryChange_frame hprep.records_eq)).change hchange

/-- An entry is deleted. -/
theorem deleted_parented (hg : g.Valid) (h : Sound g d) (hp : Parented g d)
    (hv : LiveEntry g d D v) {cs : List Nat} (hcs : ∀ c ∈ cs, g.IsCluster c) :
    Parented g (deleted g d D v cs) := by
  obtain ⟨⟨vs, ts, hbefore, hafter⟩, hothers⟩ := entries_deleted hg h hv hcs
  have hchange : EntryChange g d (deleted g d D v cs) D vs ts (some v) none := by
    refine ⟨hbefore, hafter, hothers, ?_, by simp⟩
    rintro w ⟨⟩
    exact hv.not_dot
  exact hp.change hchange

/-- The entry of a file gets its new chain. -/
theorem Rewritten.entryChange {d₁ : Disk} {cs ncs : List Nat} {first size : Nat}
    (hre : Rewritten g d d₁ cs ncs first) (h : Sound g d) (hv : LiveEntry g d D v)
    (hfile : v.entry.isDirectory = false) (hcs : Owns g d v.entry.startingCluster cs) :
    ∃ vs ts, EntryChange g d (putRecord d₁ (dirBase g D) v.pos (v.entry.withChain first size)) D
      vs ts (some v) (some (v.rewritten first size)) := by
  have hclip : (v.entry.withChain first size).Clipped := (clipped_entry hv.mem).withChain
  have hrec := fun P hP => hre.records_putRecord_of h hv hfile hcs hclip (P := P) hP
  obtain ⟨vs, ts, hbefore, hset, -⟩ := entries_putRecord hv.mem
  have hafter := hset _ hclip (isEntry_withChain (entry_isEntry hv.mem))
  rw [← entries_congr (hrec D hv.isDir)] at hafter
  refine ⟨vs, ts, hbefore, hafter, fun P hP hne => ?_, ?_, ?_⟩
  · rw [entries_congr (hrec P hP)]
    exact entries_congr (records_of_ne (h.dirNumber hv.isDir) (h.dirNumber hP) hne
      fun lba hlba => putRecord_of_ne (pos_lt_slots hv.mem) hlba)
  · rintro w ⟨⟩
    exact hv.not_dot
  · rintro w ⟨⟩ hdir
    exact absurd (Record.isDirectory_withChain.symm.trans hdir) (by simp [hfile])

/-- A file is written. -/
theorem Writes.parented (h : Sound g d) (hp : Parented g d) (hv : LiveEntry g d D v)
    (hfile : v.entry.isDirectory = false) {data : List UInt8} {append : Bool}
    (hw : Writes g d data append D v eok (clean d')) : Parented g d' := by
  obtain ⟨cs, d₁, first, ncs, hcs, hre, ⟨-, hio, -⟩ | ⟨hcode, -⟩⟩ := hw
  · obtain rfl : d' = putRecord d₁ (dirBase g D) v.pos (v.entry.withChain first
        (newSize append v.entry.fileSize data)) := congrArg Io.disk hio
    obtain ⟨vs, ts, hchange⟩ := hre.entryChange h hv hfile hcs
    exact hp.change hchange
  · exact absurd hcode (by decide)

/-- **One call.**  A call that succeeds keeps the parent links. -/
theorem Call.parented (hg : g.Valid) (h : Sound g d) (hp : Parented g d) {op : Call}
    (hpath : AsciiPath op.path) (hok : Succeeds op.run g kmalloc d d') : Parented g d' := by
  obtain ⟨env, rfl, hfuel, hrun⟩ := ret_of_yields op.regular hok
  have hneg : ¬ eok < 0 := by decide
  cases op with
  | createFile path =>
      rcases createFile_cases hg hfuel h hrun with ⟨herr, -⟩ | ⟨-, D, name, d₁, hres, -, hins, hio⟩
      · exact absurd herr hneg
      · obtain rfl : d' = d₁ := congrArg Io.disk hio
        exact hins.file_parented h hp hres.isDir (hres.component.ascii hpath)
          hres.component.length_le
  | writeFile path data append =>
      rcases writeFile_cases hg hfuel h hpath hrun with ⟨herr, -⟩ | ⟨D, name, hres, hfound | hnew⟩
      · exact absurd herr hneg
      · obtain ⟨v, -, hfile, hlive, hwrites⟩ := hfound
        exact hwrites.parented h hp hlive hfile
      · obtain ⟨-, d₁, hins, ⟨herr, -⟩ | ⟨v, -, hfile, hlive, hwrites⟩⟩ := hnew
        · exact absurd herr hneg
        · have hname := hres.component.ascii hpath
          have hlen := hres.component.length_le
          obtain ⟨hsound, -⟩ := hins.file_sound hg h hres.isDir hname hlen
          exact hwrites.parented hsound (hins.file_parented h hp hres.isDir hname hlen) hlive hfile
  | deleteFile path =>
      rcases deleteFile_cases hg hfuel h hrun with ⟨herr, -⟩ | ⟨-, D, name, v, cs, -, -, -, hlive,
        hcs, hio⟩
      · exact absurd herr hneg
      · obtain rfl : d' = deleted env.geom d D v cs := congrArg Io.disk hio
        exact deleted_parented hg h hp hlive hcs.isCluster
  | makeDirectory path =>
      rcases makeDirectory_cases hg hfuel h hrun with ⟨herr, -⟩ | ⟨D, name, c, hres, -, hfree,
        ⟨herr, -⟩ | ⟨-, d₁, hio, hins⟩⟩
      · exact absurd herr hneg
      · exact absurd herr (by decide)
      · obtain rfl : d' = d₁ := congrArg Io.disk hio
        exact hins.directory_parented hg h hp hres.isDir hfree (hres.component.ascii hpath)
          hres.component.length_le
  | removeDirectory path =>
      rcases removeDirectory_cases hg hfuel h hrun with ⟨herr, -⟩ | ⟨-, D, name, v, -, -, hdir,
        hlive, -, hio⟩
      · exact absurd herr hneg
      · obtain rfl : d' = deleted env.geom d D v [v.entry.startingCluster] := congrArg Io.disk hio
        exact deleted_parented hg h hp hlive (h.dirChain hlive hdir).isCluster

/-- **Runs.**  The parent links hold in every state of a run on a new volume. -/
theorem Run.parented {d₀ : Disk} (hf : Formatted g d₀) (hsmall : g.sectorsPerCluster ≤ 128)
    (h : Run g kmalloc d₀ d) : Parented g d := by
  induction h with
  | start => exact fun P v hv => absurd hv hf.not_live
  | call h hpath hok ih => exact Call.parented hf.valid (h.sound hf hsmall).1 ih hpath hok

end Calls

/-! ## Paths behind a directory -/

section Behind

variable {path t : List UInt8} {name : Name} {p : Except Int (Nat × Name) × Io}

theorem component_append (path t : List UInt8) :
    component (path ++ slash :: t) = component path := by
  unfold component
  congr 1
  rw [List.takeWhile_append, List.takeWhile_cons_of_neg (by simp), List.append_nil]
  split
  · rename_i hlen
    exact ((List.takeWhile_prefix _).eq_of_length hlen).symm
  · rfl

theorem length_component_le (path : List UInt8) : (component path).length ≤ path.length :=
  (List.length_take_le' ..).trans (List.takeWhile_prefix _).length_le

/-- What follows the first component, when more follows behind a slash. -/
theorem restOf_append (path t : List UInt8) :
    restOf (path ++ slash :: t) =
      if restOf path = [] then t.dropWhile (· = slash) else restOf path ++ slash :: t := by
  unfold restOf
  rw [component_append, List.drop_append_of_le_length (length_component_le path),
    List.dropWhile_append]
  simp only [List.isEmpty_iff]
  split
  · exact List.dropWhile_cons_of_pos (by simp)
  · rfl

theorem Bare.dropWhile_eq (h : Bare t) : t.dropWhile (· = slash) = t := by
  cases t with
  | nil => rfl
  | cons c t => exact List.dropWhile_cons_of_neg (by simpa [Bare] using h)

/-- The text behind the last component, when only it is left. -/
theorem restOf_append_last (hrest : restOf path = []) (ht : Bare t) :
    restOf (path ++ slash :: t) = t := by
  rw [restOf_append, if_pos hrest, ht.dropWhile_eq]

theorem restOf_append_inner (hrest : restOf path ≠ []) :
    restOf (path ++ slash :: t) = restOf path ++ slash :: t := by
  rw [restOf_append, if_neg hrest]

/-- The rounds that a resolution may take do not matter beyond the length of the path. -/
theorem resolveFrom_congr {n : Nat} : ∀ {m D : Nat} {path : List UInt8}, path.length ≤ n →
    path.length ≤ m → resolveFrom n D path = resolveFrom m D path := by
  induction n with
  | zero =>
      intro m D path hn hm
      obtain rfl : path = [] := List.eq_nil_of_length_eq_zero (Nat.le_zero.1 hn)
      rw [resolveFrom_nil, resolveFrom_nil]
  | succ n ih =>
      intro m D path hn hm
      by_cases hpath : path = []
      · rw [hpath, resolveFrom_nil, resolveFrom_nil]
      · have hlt := restOf_length_lt hpath
        obtain ⟨m, rfl⟩ := Nat.exists_eq_succ_of_ne_zero (Nat.ne_of_gt (hlt.trans_le hm).pos)
        have hrest : ∀ D, resolveFrom n D (restOf path) = resolveFrom m D (restOf path) :=
          fun D => ih (Nat.le_of_lt_succ (hlt.trans_le hn)) (Nat.le_of_lt_succ (hlt.trans_le hm))
        by_cases hdot : component path = [dot]
        · rw [resolveFrom_dot hpath hdot, resolveFrom_dot hpath hdot, hrest]
        · by_cases hlast : restOf path = []
          · rw [resolveFrom_last hpath hdot hlast, resolveFrom_last hpath hdot hlast]
          · rw [resolveFrom_inner hpath hdot hlast, resolveFrom_inner hpath hdot hlast]
            simp only [hrest]

/-- The resolution of `path` from directory `D` on comes to `p`. -/
def Arrives (g : Geometry) (kmalloc : Nat → Option (Nat → UInt8)) (d : Disk) (D : Nat)
    (path : List UInt8) (p : Except Int (Nat × Name) × Io) : Prop :=
  Yields ((resolveFrom path.length D path).run g kmalloc (clean d)) p

/-- A self-reference is passed over. -/
theorem arrives_dot (hpath : path ≠ []) (hdot : component path = [dot]) :
    Arrives g kmalloc d D path p ↔ Arrives g kmalloc d D (restOf path) p := by
  have hlt := restOf_length_lt hpath
  unfold Arrives
  rw [resolveFrom_congr (Nat.le_refl _) (Nat.le_succ path.length), resolveFrom_dot hpath hdot,
    resolveFrom_congr hlt.le (Nat.le_refl _)]

/-- A component in front of others is looked up, and the rest is resolved from there. -/
theorem arrives_down (hpath : path ≠ []) (hdot : component path ≠ [dot]) (hrest : restOf path ≠ [])
    {f : Found} (hlooks : Looks g d D (component path) (some f))
    (hdir : f.entry.isDirectory = true) :
    Arrives g kmalloc d D path p ↔ Arrives g kmalloc d f.entry.startingCluster (restOf path) p := by
  have hlt := restOf_length_lt hpath
  unfold Arrives
  rw [resolveFrom_congr (Nat.le_refl _) (Nat.le_succ path.length),
    resolveFrom_inner hpath hdot hrest, yields_bind (regular_findInDir _ _ _) ?_]
  · constructor
    · rintro ⟨⟨found, io⟩, hq, hp⟩
      obtain ⟨hfound, hio⟩ := (yields_findInDir _).1 hq
      obtain rfl : io = clean d := hio
      obtain rfl := hfound.unique hlooks
      simp only [hdir, if_true] at hp
      rwa [resolveFrom_congr hlt.le (Nat.le_refl _)] at hp
    · intro hp
      refine ⟨(some f, clean d), (yields_findInDir _).2 ⟨hlooks, rfl⟩, ?_⟩
      simp only [hdir, if_true]
      rwa [resolveFrom_congr hlt.le (Nat.le_refl _)]
  · intro found
    cases found with
    | none => exact (total_pure _).regular
    | some found => exact regular_ite (regular_resolveFrom _ _ _) (total_pure _).regular

/-- A final component has no slash in it, and it is a part of the path. -/
theorem Asks.mem {D' : Nat} {last : Bool} (h : Asks g d D path D' name last) :
    slash ∉ name ∧ ∀ c ∈ name, c ∈ path := by
  have hcomp : ∀ path : List UInt8, slash ∉ component path ∧ ∀ c ∈ component path, c ∈ path := by
    intro path
    refine ⟨fun hmem => ?_, fun c hc => (List.takeWhile_prefix _).subset (List.mem_of_mem_take hc)⟩
    simpa using List.mem_takeWhile_imp (List.mem_of_mem_take hmem)
  have hrest : ∀ path : List UInt8, ∀ c ∈ restOf path, c ∈ path := fun path c hc =>
    List.mem_of_mem_drop ((List.dropWhile_suffix _).subset hc)
  induction h with
  | inner => exact hcomp _
  | last => exact hcomp _
  | dot _ _ _ ih => exact ⟨ih.1, fun c hc => hrest _ c (ih.2 c hc)⟩
  | down _ _ _ _ _ _ ih => exact ⟨ih.1, fun c hc => hrest _ c (ih.2 c hc)⟩

theorem component_of_name (hslash : slash ∉ name) (hlen : name.length ≤ 255) :
    component name = name := by
  have hall : ∀ c ∈ name, (c ≠ slash) = true := by
    intro c hc
    simpa using fun h : c = slash => hslash (h ▸ hc)
  unfold component
  rw [List.takeWhile_eq_self_iff.2 (by simpa using hall), List.take_of_length_le hlen]

theorem restOf_of_name (hslash : slash ∉ name) (hlen : name.length ≤ 255) :
    restOf name = [] := by
  rw [restOf, component_of_name hslash hlen, List.drop_length]
  rfl

theorem bare_of_name (hslash : slash ∉ name) : Bare name := fun h =>
  hslash (List.mem_of_mem_head? h)

theorem bare_append (hslash : slash ∉ name) (hne : name ≠ []) (t : List UInt8) :
    Bare (name ++ t) := by
  unfold Bare
  rw [List.head?_append_of_ne_nil _ hne]
  exact bare_of_name hslash

/-- The name of a directory in front of a slash is looked up. -/
theorem arrives_name (hslash : slash ∉ name) (hne : name ≠ []) (hdot : name ≠ [dot])
    (hlen : name.length ≤ 255) {f : Found} (hlooks : Looks g d D name (some f))
    (hdir : f.entry.isDirectory = true) (ht : t ≠ []) (hbare : Bare t) :
    Arrives g kmalloc d D (name ++ slash :: t) p ↔
      Arrives g kmalloc d f.entry.startingCluster t p := by
  have hcomp : component (name ++ slash :: t) = name :=
    (component_append name t).trans (component_of_name hslash hlen)
  have hrest : restOf (name ++ slash :: t) = t :=
    restOf_append_last (restOf_of_name hslash hlen) hbare
  rw [arrives_down (List.append_ne_nil_of_left_ne_nil hne _) (by rwa [hcomp]) (by rwa [hrest])
    (by rwa [hcomp]) hdir, hrest]

/-- The last component is asked for where the resolution stands. -/
theorem Asks.eq_of_last {D₀ : Nat} (h : Asks g d D₀ path D name true) (hrest : restOf path = []) :
    D = D₀ := by
  cases h with
  | last => rfl
  | dot _ _ hasks =>
      rw [hrest] at hasks
      cases hasks <;> contradiction
  | down => contradiction

/-- A name that is asked for is one component. -/
theorem Asks.restOf_name {D' : Nat} {last : Bool} (h : Asks g d D path D' name last) :
    restOf name = [] :=
  restOf_of_name h.mem.1 h.name.1

/-- **Behind a directory.**  When a path leads to a name in `D`, what stands in place of the name
is resolved from `D` on. -/
theorem Asks.arrives {D₀ : Nat} (h : Asks g d D₀ (path ++ slash :: name) D name true) (ht : t ≠ [])
    (hbare : Bare t) :
    Arrives g kmalloc d D₀ (path ++ slash :: t) p ↔ Arrives g kmalloc d D t p := by
  have hname := h.mem.1
  generalize hpath' : path ++ slash :: name = path' at h
  generalize hlast : true = last at h
  have hne : path ++ slash :: t ≠ [] := List.append_ne_nil_of_right_ne_nil _ (List.cons_ne_nil _ _)
  induction h generalizing path with
  | inner => exact absurd hlast (by decide)
  | @last D₀ path' _ _ hrest hnil =>
      -- the name would follow the last component
      rw [← hpath', restOf_append] at hrest
      split at hrest
      · rw [(bare_of_name hname).dropWhile_eq] at hrest
        exact absurd hrest hnil
      · exact absurd hrest (List.append_ne_nil_of_right_ne_nil _ (List.cons_ne_nil _ _))
  | @dot D₀ D path' name last hpath hdot hasks ih =>
      subst hpath' hlast
      rw [component_append] at hdot
      rw [arrives_dot hne ((component_append path t).trans hdot)]
      by_cases hrest : restOf path = []
      · rw [restOf_append_last hrest (bare_of_name hname)] at hasks
        rw [restOf_append_last hrest hbare, hasks.eq_of_last hasks.restOf_name]
      · rw [restOf_append_inner hrest]
        exact ih hname (restOf_append_inner hrest).symm rfl
          (List.append_ne_nil_of_right_ne_nil _ (List.cons_ne_nil _ _))
  | @down D₀ D path' name last found hpath hdot hrest' hlooks hdir hasks ih =>
      subst hpath' hlast
      rw [component_append] at hdot hlooks
      have hrest'' : restOf (path ++ slash :: t) ≠ [] := by
        rw [restOf_append]
        split
        · rwa [hbare.dropWhile_eq]
        · exact List.append_ne_nil_of_right_ne_nil _ (List.cons_ne_nil _ _)
      rw [arrives_down hne (by rwa [component_append]) hrest'' (by rwa [component_append]) hdir]
      by_cases hrest : restOf path = []
      · rw [restOf_append_last hrest (bare_of_name hname)] at hasks
        rw [restOf_append_last hrest hbare, hasks.eq_of_last hasks.restOf_name]
      · rw [restOf_append_inner hrest]
        exact ih hname (restOf_append_inner hrest).symm rfl
          (List.append_ne_nil_of_right_ne_nil _ (List.cons_ne_nil _ _))

theorem cString_append {path : List UInt8} (hpath : (0 : UInt8) ∉ path) (t : List UInt8) :
    cString (path ++ t) = path ++ cString t := by
  refine List.takeWhile_append_of_pos fun c hc => ?_
  simpa using fun h : c = 0 => hpath (h ▸ hc)

theorem zero_not_mem_pathTail (path : List UInt8) : (0 : UInt8) ∉ pathTail path := by
  unfold pathTail
  split
  · exact fun h => zero_not_mem_cString path (List.mem_of_mem_tail h)
  · exact zero_not_mem_cString path

/-- The first slash of a path is skipped; what stands behind a later one stays. -/
theorem pathTail_append {path : List UInt8} (hpath : (0 : UInt8) ∉ path) :
    (∀ t, pathTail (path ++ slash :: t) = cString t) ∨
      ∃ u, ∀ t, pathTail (path ++ slash :: t) = u ++ slash :: cString t := by
  have hcut : ∀ t, cString (path ++ slash :: t) = path ++ slash :: cString t := fun t =>
    cString_append hpath (slash :: t)
  unfold pathTail
  simp only [hcut]
  rcases path with _ | ⟨c, path⟩
  · exact Or.inl fun t => rfl
  · by_cases hc : c = slash
    · exact Or.inr ⟨path, fun t => if_pos (congrArg some hc)⟩
    · exact Or.inr ⟨c :: path, fun t => if_neg fun h => hc (Option.some.inj h)⟩

/-- **A path behind a directory.**  When `path/name` leads to `name` in `D`, the path `path/t` is
resolved from `D` on. -/
theorem yields_behind {path t : List UInt8} (hpath : (0 : UInt8) ∉ path)
    (h : LeadsTo g d (path ++ slash :: name) D name) (ht : cString t ≠ [])
    (hbare : Bare (cString t)) :
    Yields ((resolvePath (path ++ slash :: t)).run g kmalloc (clean d)) p ↔
      Arrives g kmalloc d D (cString t) p := by
  have hzero : cString name = name := by
    refine List.takeWhile_eq_self_iff.2 fun c hc => ?_
    have hmem := zero_not_mem_pathTail (path ++ slash :: name)
    simpa using fun h₀ : c = 0 => hmem (h₀ ▸ h.mem.2 c hc)
  rw [resolvePath_eq]
  unfold LeadsTo at h
  rcases pathTail_append hpath with htail | ⟨u, htail⟩
  · rw [htail, hzero] at h
    rw [htail, h.eq_of_last h.restOf_name]
    rfl
  · rw [htail, hzero] at h
    rw [htail]
    exact h.arrives ht hbare

end Behind

/-! ## The way back up -/

/-- The lookup of `..` in a directory that begins with its dots leads to the parent. -/
theorem HasDots.looks (hg : g.Valid) (h : Sound g d) (hc : IsDir g d c) (hP : P < 65536)
    (hdots : HasDots g d P c) :
    ∃ f, Looks g d c [dot, dot] (some f) ∧ f.entry.isDirectory = true ∧
      f.entry.startingCluster = P := by
  obtain ⟨ts, hent⟩ := hdots
  have hself : ¬ (Visit.mk 0 emptyBuffer (dotRecord [dot] c)).Matches [dot, dot] := by
    intro hmatch
    rcases ((shows_dot (by decide) (by decide)).names _).1 hmatch with hsame | hsame
    · exact absurd (sameName_iff.1 hsame).1 (by decide)
    · exact absurd (sameName_iff.1 hsame).1 (by decide)
  have hparent : (Visit.mk 1 emptyBuffer (dotRecord [dot, dot] P)).Matches [dot, dot] :=
    ((shows_dot (by decide) (by decide)).names _).2 (Or.inl rfl)
  have hlookup : lookup g d c [dot, dot] = some ⟨1, emptyBuffer, dotRecord [dot, dot] P⟩ := by
    rw [lookup, hent, List.find?_cons_of_neg (by simpa using hself),
      List.find?_cons_of_pos (by simpa using hparent)]
  have hlooks := h.looks hg hc [dot, dot]
  rw [hlookup] at hlooks
  exact ⟨_, hlooks, isDirectory_dotRecord, startingCluster_dotRecord hP⟩

/-- **Parent links.**  On a volume of at most 128 sectors a cluster, when `path/name` leads to the directory `name` that has been made in `D`,
the path `path/name/../q` resolves to what `path/q` does. -/
theorem parent_links {d₀ : Disk} (hf : Formatted g d₀) (hsmall : g.sectorsPerCluster ≤ 128)
    (h : Run g kmalloc d₀ d) {path q : List UInt8} {name : Name} {found : Found} (hpath : (0 : UInt8) ∉ path)
    (hlead : LeadsTo g d (path ++ slash :: name) D name) (hlooks : Looks g d D name (some found))
    (hdir : found.entry.isDirectory = true) (hmade : ¬ found.entry.IsDot) (hq : cString q ≠ [])
    (hbare : Bare (cString q)) (kmalloc' : Nat → Option (Nat → UInt8)) :
    ∃ r, Yields ((resolvePath (path ++ slash :: (name ++ slash :: dot :: dot :: slash :: q))).run g
        kmalloc' (clean d)) (r, clean d) ∧
      Yields ((resolvePath (path ++ slash :: q)).run g kmalloc' (clean d)) (r, clean d) := by
  have hg := hf.valid
  have hsound := (h.sound hf hsmall).1
  obtain ⟨hD, hname⟩ := hlead.isDir hg hsound
  -- the directory that is found begins with a `..` that names `D`
  obtain ⟨v, hlookup, rfl⟩ := Option.map_eq_some_iff.1 ((hsound.looks hg hD name).unique hlooks)
  have hlive : LiveEntry g d D v := ⟨hD, (lookup_mem hlookup).1, hmade⟩
  obtain ⟨up, hup, hupdir, rfl⟩ := HasDots.looks hg hsound (IsDir.sub hD hlive.mem hdir hmade)
    (hsound.dir_lt hg hD) (h.parented hf hsmall D v hlive hdir)
  -- both paths are resolved from `D` on
  have hslash : slash ∉ name := hlead.mem.1
  have hzero : (0 : UInt8) ∉ name := fun h₀ => zero_not_mem_cString _ (hname.subset 0 h₀)
  have hcut : cString (name ++ slash :: dot :: dot :: slash :: q) =
      name ++ slash :: ([dot, dot] ++ slash :: cString q) := cString_append hzero _
  have hbehind := bare_append hslash hname.ne_nil (slash :: ([dot, dot] ++ slash :: cString q))
  rw [← hcut] at hbehind
  obtain ⟨r, hr, -⟩ : ∃ r, resolveFrom (cString q).length up.entry.startingCluster (cString q)
      ⟨g, 2, kmalloc'⟩ (clean d) = .ret (r, clean d) ∧ Resolved g d (cString q) r :=
    resolveFrom_clean hg (le_refl 2) hsound _ _ _ hD
  have harr : Arrives g kmalloc' d up.entry.startingCluster (cString q) (r, clean d) := ⟨2, hr⟩
  have hback : Arrives g kmalloc' d v.entry.startingCluster ([dot, dot] ++ slash :: cString q)
      (r, clean d) :=
    (arrives_name (by decide) (by decide) (by decide) (by decide) hup hupdir hq hbare).2 harr
  have hdots : Bare ([dot, dot] ++ slash :: cString q) :=
    bare_append (by decide) (List.cons_ne_nil _ _) _
  refine ⟨r, ?_, (yields_behind hpath hlead hq hbare).2 harr⟩
  rw [yields_behind hpath hlead (hcut ▸ List.append_ne_nil_of_left_ne_nil hname.ne_nil _) hbehind,
    hcut]
  exact (arrives_name hslash hname.ne_nil hname.ne_dot hname.length_le hlooks hdir
    (List.cons_ne_nil _ _) hdots).2 hback

/-- On a volume with the directory `/a`, the path `/a/../b` is resolved as `/b` is. -/
theorem parent_links_a :
    ∃ r, Yields ((resolvePath [0x2F, 0x61, 0x2F, 0x2E, 0x2E, 0x2F, 0x62]).run wideGeometry
        (fun _ => none) (clean (after (makeDirectory [0x2F, 0x61]) blankDisk)))
        (r, clean (after (makeDirectory [0x2F, 0x61]) blankDisk)) ∧
      Yields ((resolvePath [0x2F, 0x62]).run wideGeometry (fun _ => none)
        (clean (after (makeDirectory [0x2F, 0x61]) blankDisk)))
        (r, clean (after (makeDirectory [0x2F, 0x61]) blankDisk)) := by
  have hf := formatted_blankDisk
  have hmake : Succeeds (Call.makeDirectory [0x2F, 0x61]).run wideGeometry (fun _ => none) blankDisk
      (after (makeDirectory [0x2F, 0x61]) blankDisk) :=
    succeeds_after (Call.regular _) (by decide +kernel)
  have hstart : Run wideGeometry (fun _ => none) blankDisk blankDisk := .start
  have hrun := hstart.call (below_of_all (by decide)) hmake
  have hentry : (lookup wideGeometry (after (makeDirectory [0x2F, 0x61]) blankDisk) 0 [0x61]).any
      (fun v => v.entry.isDirectory && !decide v.entry.IsDot) = true := by decide +kernel
  obtain ⟨v, hlookup, hv⟩ := (Option.any_eq_true _ _).1 hentry
  have hmade : ¬ v.entry.IsDot := by simpa using (Bool.and_eq_true_iff.1 hv).2
  have hlooks := (hrun.sound hf (by decide)).1.looks hf.valid .root [0x61]
  rw [hlookup] at hlooks
  have hlead : LeadsTo wideGeometry (after (makeDirectory [0x2F, 0x61]) blankDisk)
      ([] ++ slash :: [0x61]) 0 [0x61] := leadsTo_a _ _
  have hbare : Bare (cString [0x62]) := bare_of_name (by decide)
  have hlinks := parent_links hf (by decide) hrun List.not_mem_nil hlead hlooks (Bool.and_eq_true_iff.1 hv).1
    hmade (by decide) hbare fun _ => none
  exact hlinks

end Fat16

end BenmoshOS
