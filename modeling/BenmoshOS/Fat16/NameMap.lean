import BenmoshOS.Fat16.Runs

/-!
# FAT16: a directory as a map of names

`fat16_find_in_dir` finds what has been created in a directory and not removed, by its long name
and by its short name.  This fails when a name is created right behind records that a removed
entry has left in the directory.

* `Listed`, `Lists` — the entries of the map, and the directories that show them.
* `NameRun` — runs of creations and removals in one directory.
* `directory_lists_names` — lookups find exactly the map, in every state of a run in which no
  new name is spoiled by records in front of it (`Unspoiled`).
-/

namespace BenmoshOS

namespace Fat16

open Exec (Yields Halts)
open Fs

variable {g : Geometry} {d d' : Disk} {kmalloc : Nat → Option (Nat → UInt8)} {D : Nat}

/-! ## The map -/

/-- An entry that has been created: the slot of its short-name record and its two names. -/
structure Listed where
  pos : Nat
  long : Name
  short : Name

/-- The entry is asked for by its long name or its short name, in any case. -/
def Listed.Answers (n : Name) (e : Listed) : Prop := SameName n e.long ∨ SameName n e.short

/-- The visit of a scan shows the entry. -/
structure Shows (v : Visit) (e : Listed) : Prop where
  pos : v.pos = e.pos
  names : ∀ n, v.Matches n ↔ e.Answers n

/-- The directory shows the entries of `M`, and no two of them answer to one name. -/
structure Lists (g : Geometry) (d : Disk) (D : Nat) (M : Set Listed) : Prop where
  shown : ∀ v ∈ entries g d D, ∃ e ∈ M, Shows v e
  listed : ∀ e ∈ M, ∃ v ∈ entries g d D, Shows v e
  distinct : ∀ e ∈ M, ∀ e' ∈ M, ∀ n, e.Answers n → e'.Answers n → e = e'

section Lists

variable {M : Set Listed} {e : Listed} {v : Visit} {n name : Name} {vs ts : List Visit}

theorem lookup_eq_none_iff : lookup g d D n = none ↔ ∀ v ∈ entries g d D, ¬ v.Matches n := by
  simp [lookup]

theorem Lists.answers_of_lookup (h : Lists g d D M) (hl : lookup g d D n = some v) :
    ∃ e ∈ M, e.Answers n ∧ Shows v e := by
  obtain ⟨hv, hmatch⟩ := lookup_mem hl
  obtain ⟨e, he, hshows⟩ := h.shown v hv
  exact ⟨e, he, (hshows.names n).1 hmatch, hshows⟩

/-- The entry that answers to a name is found. -/
theorem Lists.lookup_of_answers (h : Lists g d D M) (he : e ∈ M) (hn : e.Answers n) :
    ∃ v, lookup g d D n = some v ∧ Shows v e := by
  cases hl : lookup g d D n with
  | none =>
      obtain ⟨v, hv, hshows⟩ := h.listed e he
      exact absurd ((hshows.names n).2 hn) (lookup_eq_none_iff.1 hl v hv)
  | some v =>
      obtain ⟨e', he', hn', hshows⟩ := h.answers_of_lookup hl
      obtain rfl := h.distinct e he e' he' n hn hn'
      exact ⟨v, rfl, hshows⟩

theorem Lists.congr (h : Lists g d D M) (heq : entries g d' D = entries g d D) :
    Lists g d' D M := by
  refine ⟨?_, ?_, h.distinct⟩
  · rw [heq]
    exact h.shown
  · rw [heq]
    exact h.listed

/-- A new entry that answers to none of the names that are found. -/
theorem Lists.insert (h : Lists g d D M) (hbefore : entries g d D = vs ++ ts)
    (hafter : entries g d' D = vs ++ v :: ts) (hshows : Shows v e)
    (hlong : lookup g d D e.long = none) (hshort : lookup g d D e.short = none) :
    Lists g d' D (insert e M) := by
  have hother : ∀ e' ∈ M, ∀ n, e'.Answers n → ¬ e.Answers n := by
    intro e' he' n hn' hn
    obtain ⟨v', hv', hshows'⟩ := h.listed e' he'
    have hmatch := (hshows'.names n).2 hn'
    rcases hn with hsame | hsame
    · exact lookup_eq_none_iff.1 hlong v' hv' ((Visit.matches_congr hsame v').1 hmatch)
    · exact lookup_eq_none_iff.1 hshort v' hv' ((Visit.matches_congr hsame v').1 hmatch)
  have hmem : ∀ w, w ∈ entries g d' D ↔ w ∈ entries g d D ∨ w = v := by
    intro w
    rw [hafter, hbefore]
    simp only [List.mem_append, List.mem_cons]
    rw [or_left_comm, or_comm]
  refine ⟨fun w hw => ?_, fun e' he' => ?_, ?_⟩
  · rcases (hmem w).1 hw with hw | rfl
    · obtain ⟨e', he', hshows'⟩ := h.shown w hw
      exact ⟨e', Set.mem_insert_of_mem e he', hshows'⟩
    · exact ⟨e, Set.mem_insert e M, hshows⟩
  · rcases Set.mem_insert_iff.1 he' with rfl | he'
    · exact ⟨v, (hmem v).2 (Or.inr rfl), hshows⟩
    · obtain ⟨w, hw, hshows'⟩ := h.listed e' he'
      exact ⟨w, (hmem w).2 (Or.inl hw), hshows'⟩
  · intro e₁ h₁ e₂ h₂ n hn₁ hn₂
    rcases Set.mem_insert_iff.1 h₁ with rfl | hold₁
    · rcases Set.mem_insert_iff.1 h₂ with rfl | hold₂
      · rfl
      · exact absurd hn₁ (hother e₂ hold₂ n hn₂)
    · rcases Set.mem_insert_iff.1 h₂ with rfl | hold₂
      · exact absurd hn₂ (hother e₁ hold₁ n hn₁)
      · exact h.distinct e₁ hold₁ e₂ hold₂ n hn₁ hn₂

/-- The entry that has been found is removed. -/
theorem Lists.remove (h : Lists g d D M) (hbefore : entries g d D = vs ++ v :: ts)
    (hafter : entries g d' D = vs ++ ts) (hl : lookup g d D name = some v) :
    Lists g d' D {e | e ∈ M ∧ ¬ e.Answers name} := by
  obtain ⟨e₀, he₀, hn₀, hshows₀⟩ := h.answers_of_lookup hl
  have hmem : ∀ w, w ∈ entries g d D ↔ w ∈ entries g d' D ∨ w = v := by
    intro w
    rw [hafter, hbefore]
    simp only [List.mem_append, List.mem_cons]
    rw [or_left_comm, or_comm]
  have hv : v ∈ entries g d D := (hmem v).2 (Or.inr rfl)
  refine ⟨fun w hw => ?_, fun e he => ?_, fun e he e' he' => h.distinct e he.1 e' he'.1⟩
  · have hwold := (hmem w).2 (Or.inl hw)
    obtain ⟨e, he, hshows⟩ := h.shown w hwold
    refine ⟨e, ⟨he, fun hn => ?_⟩, hshows⟩
    -- two entries that answer to the name are one, and so are their visits
    obtain rfl := h.distinct e he e₀ he₀ name hn hn₀
    have hwv := entries_inj hwold hv (hshows.pos.trans hshows₀.pos.symm)
    rw [hafter, hwv] at hw
    exact not_mem_of_entries hbefore hw
  · obtain ⟨w, hw, hshows⟩ := h.listed e he.1
    rcases (hmem w).1 hw with hw | rfl
    · exact ⟨w, hw, hshows⟩
    · exact absurd ((hshows.names name).1 (lookup_mem hl).2) he.2

end Lists

/-- A path leads to a name in a directory of the tree. -/
theorem LeadsTo.isDir (hg : g.Valid) (h : Sound g d) {path : List UInt8} {name : Name}
    (hlead : LeadsTo g d path D name) : IsDir g d D ∧ Component (cString path) name := by
  have hg' : (⟨g, 2, fun _ => none⟩ : Env).geom.Valid := hg
  obtain ⟨r, hrun, hres⟩ := resolvePath_clean hg' (le_refl 2) h path
  have hyields : Yields ((resolvePath path).run g (fun _ => none) (clean d)) (r, clean d) :=
    ⟨2, hrun⟩
  obtain rfl : r = .ok (D, name) := ((yields_resolvePath hyields).2 D name).1 hlead
  exact hres

/-! ## Directories that stay -/

/-- A directory stays when its ancestors keep their subdirectories. -/
theorem IsDir.kept {X : Nat → Prop}
    (h : ∀ P c, IsDir g d P → Sub g d P c → X c → X P ∧ Sub g d' P c) (hD : IsDir g d D)
    (hX : X D) : IsDir g d' D := by
  induction hD with
  | root => exact .root
  | sub hP hv hdir hdot ih =>
      obtain ⟨hparent, w, hw, hwdir, hwdot, hc⟩ := h _ _ hP ⟨_, hv, hdir, hdot, rfl⟩ hX
      rw [← hc]
      exact .sub (ih hparent) hw hwdir hwdot

/-- A deletion takes one entry out of its directory and changes no other one. -/
theorem entries_deleted (hg : g.Valid) (h : Sound g d) {v : Visit} (hv : LiveEntry g d D v)
    {cs : List Nat} (hcs : ∀ c ∈ cs, g.IsCluster c) :
    (∃ vs ts, entries g d D = vs ++ v :: ts ∧ entries g (deleted g d D v cs) D = vs ++ ts) ∧
      ∀ P, IsDir g d P → P ≠ D → entries g (deleted g d D v cs) P = entries g d P := by
  have hrec : ∀ P, records g (deleted g d D v cs) P =
      records g (putRecord d (dirBase g D) v.pos (setByte v.entry 0 0xE5)) P := by
    intro P
    refine records_congr fun lba hlba => ?_
    rw [deleted, ← clearAll_putRecord hg hcs,
      clearAll_of_le hg hcs ((g.rootDirSector_le_dirBase P).trans hlba.1)]
  refine ⟨?_, fun P hP hne => entries_congr ?_⟩
  · obtain ⟨vs, ts, hbefore, -, htomb⟩ := entries_putRecord hv.mem
    refine ⟨vs, ts, hbefore, ?_⟩
    rw [entries_congr (hrec D)]
    exact htomb _ (tombstone_clipped (clipped_entry hv.mem)) (if_pos rfl)
  · rw [hrec P, records_of_ne (h.dirNumber hv.isDir) (h.dirNumber hP) hne
      fun lba hlba => putRecord_of_ne (pos_lt_slots hv.mem) hlba]

/-- A directory that is not the removed entry stays. -/
theorem isDir_deleted (hg : g.Valid) (h : Sound g d) {v : Visit} (hv : LiveEntry g d D v)
    {cs : List Nat} (hcs : ∀ c ∈ cs, g.IsCluster c)
    (hempty : v.entry.isDirectory = true →
      ∀ w ∈ entries g d v.entry.startingCluster, w.entry.IsDot) :
    IsDir g (deleted g d D v cs) D := by
  obtain ⟨⟨vs, ts, hbefore, hafter⟩, hother⟩ := entries_deleted hg h hv hcs
  -- no ancestor of the directory is the removed one, which has no subdirectories
  have hkept : ∀ P c, IsDir g d P → Sub g d P c →
      (v.entry.isDirectory = true → c ≠ v.entry.startingCluster) →
      (v.entry.isDirectory = true → P ≠ v.entry.startingCluster) ∧
        Sub g (deleted g d D v cs) P c := by
    intro P c hP hsub hc
    obtain ⟨w, hw, hwdir, hwdot, rfl⟩ := hsub
    refine ⟨fun hdir heq => hwdot (hempty hdir w (heq ▸ hw)), w, ?_, hwdir, hwdot, rfl⟩
    by_cases hne : P = D
    · subst hne
      rw [hbefore] at hw
      rw [hafter]
      rcases List.mem_append.1 hw with hw | hw
      · exact List.mem_append_left _ hw
      · rcases List.mem_cons.1 hw with rfl | hw
        · exact absurd rfl (hc hwdir)
        · exact List.mem_append_right _ hw
    · rwa [hother P hP hne]
  refine hv.isDir.kept hkept fun hdir heq => ?_
  exact hv.not_dot (hempty hdir v (heq ▸ hv.mem))

/-- An insertion keeps its directory. -/
theorem isDir_inserted (h : Sound g d) (hD : IsDir g d D) {vs ts : List Visit} {v : Visit}
    (hbefore : entries g d D = vs ++ ts) (hafter : entries g d' D = vs ++ v :: ts)
    (hout : ∀ lba, ¬ DirSector g D lba → d' lba = d lba) : IsDir g d' D := by
  have hkept : ∀ P c, IsDir g d P → Sub g d P c → Sub g d' P c := by
    intro P c hP hsub
    obtain ⟨w, hw, hrest⟩ := hsub
    refine ⟨w, ?_, hrest⟩
    by_cases hne : P = D
    · subst hne
      rw [hbefore] at hw
      rw [hafter]
      rcases List.mem_append.1 hw with hw | hw
      · exact List.mem_append_left _ hw
      · exact List.mem_append_right _ (List.mem_cons_of_mem v hw)
    · rwa [entries_congr (records_of_ne (h.dirNumber hD) (h.dirNumber hP) hne hout)]
  exact hD.kept (X := fun _ => True) (fun P c hP hsub _ => ⟨trivial, hkept P c hP hsub⟩) trivial

/-! ## Runs in one directory -/

/-- The short name of an entry with its dot, as a lookup compares it. -/
def shortText (r : Record) : Name := cString (dotted (slice r 0 8) (slice r 8 3))

/-- `e` is the entry that a creation of `name` adds to directory `D`: it lies behind its long
name, in the slots that the search picks. -/
structure NewEntry (g : Geometry) (d d' : Disk) (D : Nat) (name : Name) (e : Listed) : Prop where
  long : e.long = name
  short : e.short = shortText (slotAt d' (dirBase g D) e.pos)
  slot : ∃ p, Window (records g d D) p (lfnCount name + 1) ∧ e.pos = p + lfnCount name

theorem NewEntry.answers {name : Name} {e : Listed} (h : NewEntry g d d' D name e) :
    e.Answers name := by
  rw [Listed.Answers, h.long]
  exact Or.inl rfl

/-- The calls that add an entry, and those that remove one. -/
def Call.Creates : Call → Prop
  | .createFile _ => True
  | .makeDirectory _ => True
  | _ => False

def Call.Removes : Call → Prop
  | .deleteFile _ => True
  | .removeDirectory _ => True
  | _ => False

theorem creates_createFile (path : List UInt8) : (Call.createFile path).Creates := trivial

theorem removes_deleteFile (path : List UInt8) : (Call.deleteFile path).Removes := trivial

/-- A new directory shows `.` and `..`, the root shows nothing. -/
def EmptyDir (g : Geometry) (d : Disk) (D : Nat) : Prop :=
  if D = 0 then entries g d 0 = []
  else ∃ P, entries g d D =
    [⟨0, emptyBuffer, dotRecord [dot] D⟩, ⟨1, emptyBuffer, dotRecord [dot, dot] P⟩]

/-- The names of an empty directory. -/
def dots (D : Nat) : Set Listed :=
  if D = 0 then ∅ else {⟨0, [dot], [dot]⟩, ⟨1, [dot, dot], [dot, dot]⟩}

/-- Runs of calls that create and remove entries of directory `D`: the disk and the entries that
have been created and not removed.  `C` is what holds of the disk and the name whenever a call
creates an entry. -/
inductive NameRun (g : Geometry) (kmalloc : Nat → Option (Nat → UInt8)) (D : Nat)
    (C : Disk → Name → Prop) (d₀ : Disk) : Disk → Set Listed → Prop
  | start : NameRun g kmalloc D C d₀ d₀ (dots D)
  | create {d d' : Disk} {M : Set Listed} {op : Call} {name : Name} {e : Listed}
      (h : NameRun g kmalloc D C d₀ d M) (hop : op.Creates) (hlead : LeadsTo g d op.path D name)
      (hascii : ∀ c ∈ name, c < 0x80) (hlen : name.length ≤ 247) (hname : C d name)
      (hok : Succeeds op.run g kmalloc d d') (hnew : NewEntry g d d' D name e) :
      NameRun g kmalloc D C d₀ d' (insert e M)
  | remove {d d' : Disk} {M : Set Listed} {op : Call} {name : Name}
      (h : NameRun g kmalloc D C d₀ d M) (hop : op.Removes) (hlead : LeadsTo g d op.path D name)
      (hok : Succeeds op.run g kmalloc d d') :
      NameRun g kmalloc D C d₀ d' {e | e ∈ M ∧ ¬ e.Answers name}
  | fail {d d' : Disk} {M : Set Listed} {op : Call} {code : Int}
      (h : NameRun g kmalloc D C d₀ d M) (hop : op.Creates ∨ op.Removes) (hcode : code ≠ eok)
      (hfail : Yields (op.run.run g kmalloc (clean d)) (code, clean d')) :
      NameRun g kmalloc D C d₀ d' M

/-- No record in front of the slots of a new entry adds to its long name. -/
def Unspoiled (g : Geometry) (D : Nat) (d : Disk) (name : Name) : Prop :=
  ∀ p, Window (records g d D) p (lfnCount name + 1) →
    Terminated (pendingBuffer (records g d D) p) name

/-- The visit of a new entry, when a scan comes to its slots with the long-name buffer `b`. -/
def newVisit (b : Nat → UInt8) (name : Name) (sfn : List UInt8) (attributes : UInt8)
    (cluster size pos : Nat) : Visit :=
  ⟨pos, bufferAfter b (lfnRecords name (lfnChecksum sfn)), sfnRecord sfn attributes cluster size⟩

/-- What holds of the directory in every state of a run. -/
structure Mapped (g : Geometry) (d : Disk) (D : Nat) (M : Set Listed) : Prop where
  sound : Sound g d
  isDir : IsDir g d D
  lists : Lists g d D M

/-! ### Steps -/

section Steps

variable {M : Set Listed} {name : Name} {e : Listed}

/-- The entry of an insertion, on a disk `d₁` whose directory is that of `d`. -/
theorem Mapped.inserted {d₁ : Disk} (h : Mapped g d D M) (hsound : Sound g d₁)
    (hD : IsDir g d₁ D) (hrec : records g d₁ D = records g d D) (hascii : Ascii name)
    (hne : name ≠ []) (hlen : name.length ≤ 255) (hnone : lookup g d D name = none)
    {attributes : UInt8} {cluster size : Nat} (hlfn : attributes ≠ attrLfn)
    (hlabel : attributes ≠ attrVolumeId)
    (hins : Inserted g d₁ D name attributes cluster size d') (hclean : Unspoiled g D d name)
    (hnew : NewEntry g d d' D name e) :
    IsDir g d' D ∧ Lists g d' D (insert e M) := by
  obtain ⟨attempt, p, vs, ts, hspec⟩ := hins.spec (hsound.zeroTail D hD) hascii hlen hlfn hlabel
  have hent : entries g d₁ D = entries g d D := entries_congr hrec
  have hwindow := hspec.window
  rw [hrec] at hwindow
  obtain ⟨q, hq, hpos⟩ := hnew.slot
  obtain rfl := hq.unique hwindow
  have hsfn := length_generateShortName name attempt
  have hafter : entries g d' D = vs ++ newVisit (pendingBuffer (records g d₁ D) q) name
      (generateShortName name attempt) attributes cluster size (q + lfnCount name) :: ts :=
    hspec.after
  have hv : newVisit (pendingBuffer (records g d₁ D) q) name (generateShortName name attempt)
      attributes cluster size (q + lfnCount name) ∈ entries g d' D := by
    rw [hafter]
    exact List.mem_append_right _ (List.mem_cons_self ..)
  have hshort : e.short = tempTarget (generateShortName name attempt) := by
    rw [hnew.short, hpos]
    refine (congrArg shortText (slotAt_entry hv)).trans ?_
    unfold shortText
    exact congrArg₂ (fun b x => cString (dotted b x)) (slice_sfnRecord hsfn).1
      (slice_sfnRecord hsfn).2
  have hterminated : Terminated (pendingBuffer (records g d₁ D) q) name := by
    rw [hrec]
    exact hclean q hwindow
  have hshows : Shows (newVisit (pendingBuffer (records g d₁ D) q) name
      (generateShortName name attempt) attributes cluster size (q + lfnCount name)) e := by
    refine ⟨hpos.symm, fun n => ?_⟩
    unfold Listed.Answers
    rw [hnew.long, hshort]
    exact matches_new hascii hne hlen hterminated hsfn
  refine ⟨isDir_inserted hsound hD hspec.before hafter fun lba hlba => hspec.outside' hlba, ?_⟩
  refine (h.lists.congr hent).insert hspec.before hafter hshows ?_ ?_
  · rw [hnew.long, lookup, hent]
    exact hnone
  · rw [hshort]
    exact hspec.fresh

/-- The path of a call leads to one name. -/
theorem Resolves.of_leadsTo {env : Env} {path : List UInt8} {D' : Nat} {name' : Name}
    (hres : Resolves env d path D' name') (hlead : LeadsTo env.geom d path D name) :
    D' = D ∧ name' = name := by
  have hyields : Yields ((resolvePath path).run env.geom env.kmalloc (clean d))
      (.ok (D', name'), clean d) := ⟨env.fuel, hres.eq⟩
  have heq := ((yields_resolvePath hyields).2 D name).1 hlead
  obtain ⟨rfl, rfl⟩ := Prod.mk.inj (Except.ok.inj heq)
  exact ⟨rfl, rfl⟩

/-- The names of paths have no zero bytes. -/
theorem Resolves.ascii {env : Env} {path : List UInt8} (hres : Resolves env d path D name)
    (hascii : ∀ c ∈ name, c < 0x80) : Ascii name := by
  intro c hc
  exact ⟨fun hzero => zero_not_mem_cString path (hzero ▸ hres.component.subset c hc), hascii c hc⟩

/-- **Creation.** -/
theorem Mapped.create (hg : g.Valid) (h : Mapped g d D M) {op : Call} (hop : op.Creates)
    (hlead : LeadsTo g d op.path D name) (hascii : ∀ c ∈ name, c < 0x80)
    (hclean : Unspoiled g D d name) (hok : Succeeds op.run g kmalloc d d')
    (hnew : NewEntry g d d' D name e) : Mapped g d' D (insert e M) := by
  obtain ⟨env, rfl, hfuel, hrun⟩ := ret_of_yields op.regular hok
  cases op with
  | createFile path =>
      rcases createFile_cases hg hfuel h.sound hrun with ⟨herr, -⟩ | ⟨-, D', name', d₁, hres, hnone,
        hins, hio⟩
      · exact absurd herr (by decide)
      · obtain rfl : d' = d₁ := congrArg Io.disk hio
        obtain ⟨rfl, rfl⟩ := hres.of_leadsTo hlead
        have hname := hres.ascii hascii
        have hlen := hres.component.length_le
        obtain ⟨hdir, hlists⟩ := h.inserted h.sound h.isDir rfl hname hres.component.ne_nil hlen
          hnone (by decide) (by decide) hins hclean hnew
        exact ⟨(hins.file_sound hg h.sound h.isDir hname hlen).1, hdir, hlists⟩
  | makeDirectory path =>
      rcases makeDirectory_cases hg hfuel h.sound hrun with ⟨herr, -⟩ | ⟨D', name', c, hres, hnone,
        hfree, ⟨herr, -⟩ | ⟨-, d₁, hio, hins⟩⟩
      · exact absurd herr (by decide)
      · exact absurd herr (by decide)
      · obtain rfl : d' = d₁ := congrArg Io.disk hio
        obtain ⟨rfl, rfl⟩ := hres.of_leadsTo hlead
        have hname := hres.ascii hascii
        have hlen := hres.component.length_le
        have hprep := prepared_spec (P := D') hg h.sound hfree
        obtain ⟨hdir, hlists⟩ := h.inserted hprep.sound (hprep.isDir D' h.isDir)
          (hprep.records_eq D' h.isDir) hname hres.component.ne_nil hlen hnone (by decide)
          (by decide) hins hclean hnew
        exact ⟨(hins.directory_sound hg h.sound h.isDir hfree hname hlen).1, hdir, hlists⟩
  | writeFile => exact hop.elim
  | deleteFile => exact hop.elim
  | removeDirectory => exact hop.elim

/-- Every creation that succeeds has its entry. -/
theorem exists_newEntry (hg : g.Valid) (h : Sound g d) {op : Call} (hop : op.Creates)
    (hlead : LeadsTo g d op.path D name) (hascii : ∀ c ∈ name, c < 0x80)
    (hok : Succeeds op.run g kmalloc d d') : ∃ e, NewEntry g d d' D name e := by
  obtain ⟨env, rfl, hfuel, hrun⟩ := ret_of_yields op.regular hok
  have hwindow : ∀ p, Window (records env.geom d D) p (lfnCount name + 1) →
      ∃ e, NewEntry env.geom d d' D name e := fun p hp =>
    ⟨⟨p + lfnCount name, name, shortText (slotAt d' (dirBase env.geom D) (p + lfnCount name))⟩,
      rfl, rfl, p, hp, rfl⟩
  cases op with
  | createFile path =>
      rcases createFile_cases hg hfuel h hrun with ⟨herr, -⟩ | ⟨-, D', name', d₁, hres, -, hins, -⟩
      · exact absurd herr (by decide)
      · obtain ⟨rfl, rfl⟩ := hres.of_leadsTo hlead
        obtain ⟨attempt, p, _, _, hspec⟩ := hins.spec (h.zeroTail D' hres.isDir)
          (hres.ascii hascii) hres.component.length_le (by decide) (by decide)
        exact hwindow p hspec.window
  | makeDirectory path =>
      rcases makeDirectory_cases hg hfuel h hrun with ⟨herr, -⟩ | ⟨D', name', c, hres, -, hfree,
        ⟨herr, -⟩ | ⟨-, d₁, -, hins⟩⟩
      · exact absurd herr (by decide)
      · exact absurd herr (by decide)
      · obtain ⟨rfl, rfl⟩ := hres.of_leadsTo hlead
        have hprep := prepared_spec (P := D') hg h hfree
        obtain ⟨attempt, p, _, _, hspec⟩ := hins.spec
          (hprep.sound.zeroTail D' (hprep.isDir D' hres.isDir)) (hres.ascii hascii)
          hres.component.length_le (by decide) (by decide)
        refine hwindow p ?_
        rw [← hprep.records_eq D' hres.isDir]
        exact hspec.window
  | writeFile => exact hop.elim
  | deleteFile => exact hop.elim
  | removeDirectory => exact hop.elim

/-- **Removal.** -/
theorem Mapped.remove (hg : g.Valid) (h : Mapped g d D M) {op : Call} (hop : op.Removes)
    (hlead : LeadsTo g d op.path D name) (hok : Succeeds op.run g kmalloc d d') :
    Mapped g d' D {e | e ∈ M ∧ ¬ e.Answers name} := by
  obtain ⟨env, rfl, hfuel, hrun⟩ := ret_of_yields op.regular hok
  have hremoved : ∀ v cs, LiveEntry env.geom d D v → lookup env.geom d D name = some v →
      (∀ c ∈ cs, env.geom.IsCluster c) → (v.entry.isDirectory = true →
        ∀ w ∈ entries env.geom d v.entry.startingCluster, w.entry.IsDot) →
      IsDir env.geom (deleted env.geom d D v cs) D ∧
        Lists env.geom (deleted env.geom d D v cs) D {e | e ∈ M ∧ ¬ e.Answers name} := by
    intro v cs hlive hl hcs hempty
    obtain ⟨⟨vs, ts, hbefore, hafter⟩, -⟩ := entries_deleted hg h.sound hlive hcs
    exact ⟨isDir_deleted hg h.sound hlive hcs hempty, h.lists.remove hbefore hafter hl⟩
  cases op with
  | deleteFile path =>
      rcases deleteFile_cases hg hfuel h.sound hrun with ⟨herr, -⟩ | ⟨-, D', name', v, cs, hres, hl,
        hfile, hlive, hcs, hio⟩
      · exact absurd herr (by decide)
      · obtain ⟨rfl, rfl⟩ := hres.of_leadsTo hlead
        obtain rfl : d' = deleted env.geom d D' v cs := congrArg Io.disk hio
        obtain ⟨hdir, hlists⟩ := hremoved v cs hlive hl hcs.isCluster fun hdir =>
          absurd (hfile.symm.trans hdir) (by simp)
        exact ⟨(deleted_sound hg h.sound hlive hfile hcs).1, hdir, hlists⟩
  | removeDirectory path =>
      rcases removeDirectory_cases hg hfuel h.sound hrun with ⟨herr, -⟩ | ⟨-, D', name', v, hres, hl,
        hdir, hlive, hempty, hio⟩
      · exact absurd herr (by decide)
      · obtain ⟨rfl, rfl⟩ := hres.of_leadsTo hlead
        obtain rfl : d' = deleted env.geom d D' v [v.entry.startingCluster] :=
          congrArg Io.disk hio
        obtain ⟨hdir', hlists⟩ := hremoved v [v.entry.startingCluster] hlive hl
          (h.sound.dirChain hlive hdir).isCluster fun _ => hempty
        exact ⟨(removed_sound hg h.sound hlive hdir hempty).1, hdir', hlists⟩
  | createFile => exact hop.elim
  | makeDirectory => exact hop.elim
  | writeFile => exact hop.elim

/-- **Failure.**  A call that fails leaves the names of every directory as they are. -/
theorem Mapped.fail (hg : g.Valid) (h : Mapped g d D M) {op : Call}
    (hop : op.Creates ∨ op.Removes) {code : Int} (hcode : code ≠ eok)
    (hfail : Yields (op.run.run g kmalloc (clean d)) (code, clean d')) : Mapped g d' D M := by
  obtain ⟨env, rfl, hfuel, hrun⟩ := ret_of_yields op.regular hfail
  have hsame : clean d' = clean d → Mapped env.geom d' D M := by
    intro hio
    obtain rfl : d' = d := congrArg Io.disk hio
    exact h
  cases op with
  | createFile path =>
      rcases createFile_cases hg hfuel h.sound hrun with ⟨-, hio⟩ | ⟨hok, -⟩
      · exact hsame hio
      · exact absurd hok hcode
  | deleteFile path =>
      rcases deleteFile_cases hg hfuel h.sound hrun with ⟨-, hio⟩ | ⟨hok, -⟩
      · exact hsame hio
      · exact absurd hok hcode
  | removeDirectory path =>
      rcases removeDirectory_cases hg hfuel h.sound hrun with ⟨-, hio⟩ | ⟨hok, -⟩
      · exact hsame hio
      · exact absurd hok hcode
  | makeDirectory path =>
      rcases makeDirectory_cases hg hfuel h.sound hrun with ⟨-, hio⟩ | ⟨D', name', c, hres, -, hfree,
        ⟨-, -, hio⟩ | ⟨hok, -⟩⟩
      · exact hsame hio
      · obtain rfl : d' = prepared env.geom d c D' := congrArg Io.disk hio
        have hprep := prepared_spec (P := D') hg h.sound hfree
        exact ⟨hprep.sound, hprep.isDir D h.isDir,
          h.lists.congr (entries_congr (hprep.records_eq D h.isDir))⟩
      · exact absurd hok hcode
  | writeFile => exact (hop.elim id id).elim

end Steps

/-! ### The start -/

theorem shows_dot {name : Name} {pos n : Nat} (hlen : name.length ≤ 11)
    (htext : cString (dotted ((padTo 11 name).take 8) ((padTo 11 name).drop 8)) = name) :
    Shows ⟨pos, emptyBuffer, dotRecord name n⟩ ⟨pos, name, name⟩ := by
  refine ⟨rfl, fun m => ?_⟩
  have hempty : ¬ (emptyBuffer 0 ≠ 0 ∧ matchFrom emptyBuffer 0 m = true) := fun h => h.1 rfl
  have hsfn := matchSfn_dotRecord (n := n) (m := m) hlen
  rw [htext] at hsfn
  exact (or_iff_right hempty).trans (hsfn.trans or_self_iff.symm)

/-- An empty directory shows its dot entries. -/
theorem EmptyDir.lists (h : EmptyDir g d D) : Lists g d D (dots D) := by
  unfold EmptyDir at h
  unfold dots
  split at h
  · rename_i hroot
    subst hroot
    rw [if_pos rfl]
    refine ⟨?_, ?_, ?_⟩
    · simp [h]
    · simp
    · simp
  · rename_i hne
    obtain ⟨P, hent⟩ := h
    rw [if_neg hne]
    have hdot : Shows ⟨0, emptyBuffer, dotRecord [dot] D⟩ ⟨0, [dot], [dot]⟩ :=
      shows_dot (by decide) (by decide)
    have hdots : Shows ⟨1, emptyBuffer, dotRecord [dot, dot] P⟩ ⟨1, [dot, dot], [dot, dot]⟩ :=
      shows_dot (by decide) (by decide)
    -- `.` and `..` are told apart by their length
    have hapart : ∀ n : Name, SameName n [dot] → ¬ SameName n [dot, dot] := by
      intro n h₁ h₂
      have hlen := (sameName_iff.1 h₁).1.symm.trans (sameName_iff.1 h₂).1
      exact absurd hlen (by decide)
    refine ⟨?_, ?_, ?_⟩
    · rw [hent]
      simp only [List.mem_cons, List.not_mem_nil, or_false, forall_eq_or_imp, forall_eq]
      exact ⟨⟨_, Or.inl rfl, hdot⟩, ⟨_, Or.inr rfl, hdots⟩⟩
    · rw [hent]
      rintro e (rfl | rfl)
      · exact ⟨_, List.mem_cons_self .., hdot⟩
      · exact ⟨_, List.mem_cons_of_mem _ (List.mem_cons_self ..), hdots⟩
    · rintro e (rfl | rfl) e' (rfl | rfl) n hn hn'
      · rfl
      · exact absurd (or_self_iff.1 hn') (hapart n (or_self_iff.1 hn))
      · exact absurd (or_self_iff.1 hn) (hapart n (or_self_iff.1 hn'))
      · rfl

/-- `fat16_make_directory` makes an empty directory. -/
theorem makeDirectory_empty (hg : g.Valid) (h : Sound g d) {path : List UInt8}
    (hpath : AsciiPath path) (hok : Succeeds (makeDirectory path) g kmalloc d d') :
    ∃ D, D ≠ 0 ∧ Sound g d' ∧ IsDir g d' D ∧ EmptyDir g d' D := by
  obtain ⟨env, rfl, hfuel, hrun⟩ := ret_of_yields (Call.regular (.makeDirectory path)) hok
  rcases makeDirectory_cases hg hfuel h hrun with ⟨herr, -⟩ | ⟨P, name, c, hres, -, hfree,
    ⟨herr, -⟩ | ⟨-, d₁, hio, hins⟩⟩
  · exact absurd herr (by decide)
  · exact absurd herr (by decide)
  · obtain rfl : d' = d₁ := congrArg Io.disk hio
    have hP := hres.isDir
    have hname := hres.component.ascii hpath
    have hprep := prepared_spec (P := P) hg h hfree
    have hc := hfree.isCluster
    obtain ⟨attempt, p, vs, ts, hspec⟩ := hins.spec (hprep.sound.zeroTail P (hprep.isDir P hP))
      hname hres.component.length_le (by decide) (by decide)
    have hout : ∀ lba, ¬ DirSector env.geom P lba → d' lba = prepared env.geom d c P lba :=
      fun lba hlba => hspec.outside' hlba
    refine ⟨c, by have := hc.1; omega,
      (hins.directory_sound hg h hP hfree hname hres.component.length_le).1, ?_, ?_⟩
    · -- the directory hangs below its parent by the new entry
      have hparent := isDir_inserted hprep.sound (hprep.isDir P hP) hspec.before hspec.after hout
      have hmem : newVisit (pendingBuffer (records env.geom (prepared env.geom d c P) P) p) name
          (generateShortName name attempt) attrDirectory c 0 (p + lfnCount name) ∈
          entries env.geom d' P := by
        rw [hspec.after]
        exact List.mem_append_right vs (List.mem_cons_self ..)
      have hdir :
          (sfnRecord (generateShortName name attempt) attrDirectory c 0).isDirectory = true := by
        rw [Record.isDirectory, attributes_sfnRecord]
        decide
      have hdot : ¬ (sfnRecord (generateShortName name attempt) attrDirectory c 0).IsDot :=
        sfnRecord_not_dot hname attempt
      have hsub := IsDir.sub hparent hmem hdir hdot
      have hstart : (sfnRecord (generateShortName name attempt) attrDirectory c 0).startingCluster
          = c := startingCluster_sfnRecord (IsCluster.lt_reserved hg hc |>.trans (by decide))
      rw [← hstart]
      exact hsub
    · have hne : c ≠ P := by
        rintro rfl
        have := hc.1
        exact hfree.not_owned (h.owned_dir hP (by omega))
      have hnew : records env.geom d' c = records env.geom (prepared env.geom d c P) c :=
        records_of_ne (h.dirNumber hP) (Or.inr hc.1) hne hout
      have hzero : c ≠ 0 := by
        have := hc.1
        omega
      unfold EmptyDir
      rw [if_neg hzero]
      exact ⟨P, (entries_congr hnew).trans (entries_newDirDisk hc.1)⟩

/-- **Names.**  In every state of a run, a lookup in the directory ends; it finds something
exactly when an entry that has been created and not removed answers to the name, and then it
finds the slot of this entry. -/
theorem directory_lists_names (hg : g.Valid) {d₀ : Disk} (hsound : Sound g d₀)
    (hD : IsDir g d₀ D) (hempty : EmptyDir g d₀ D) {M : Set Listed}
    (h : NameRun g kmalloc D (Unspoiled g D) d₀ d M) (n : Name) :
    ∃ found, Looks g d D n found ∧ (found.isSome = true ↔ ∃ e ∈ M, e.Answers n) ∧
      ∀ e ∈ M, e.Answers n → ∃ f, found = some f ∧ f.sector = dirBase g D + e.pos / 16 ∧
        f.idx = e.pos % 16 := by
  have hmapped : Mapped g d D M := by
    induction h with
    | start => exact ⟨hsound, hD, hempty.lists⟩
    | create _ hop hlead hascii _ hclean hok hnew ih =>
        exact ih.create hg hop hlead hascii hclean hok hnew
    | remove _ hop hlead hok ih => exact ih.remove hg hop hlead hok
    | fail _ hop hcode hfail ih => exact ih.fail hg hop hcode hfail
  refine ⟨_, hmapped.sound.looks hg hmapped.isDir n, ?_, fun e he hn => ?_⟩
  · rw [Option.isSome_map]
    constructor
    · intro hsome
      obtain ⟨v, hv⟩ := Option.isSome_iff_exists.1 hsome
      obtain ⟨e, he, hn, -⟩ := hmapped.lists.answers_of_lookup hv
      exact ⟨e, he, hn⟩
    · rintro ⟨e, he, hn⟩
      obtain ⟨v, hv, -⟩ := hmapped.lists.lookup_of_answers he hn
      rw [hv]
      rfl
  · obtain ⟨v, hv, hshows⟩ := hmapped.lists.lookup_of_answers he hn
    refine ⟨v.found (dirBase g D), congrArg (Option.map _) hv, ?_, ?_⟩
    · rw [← hshows.pos]
      rfl
    · rw [← hshows.pos]
      rfl

/-- On a new volume the file `/a` is created and found. -/
theorem directory_lists_names_file :
    ∃ f, Looks wideGeometry (after (createFile [0x2F, 0x61]) blankDisk) 0 [0x61] (some f) := by
  have hok : Succeeds (Call.createFile [0x2F, 0x61]).run wideGeometry (fun _ => none) blankDisk
      (after (createFile [0x2F, 0x61]) blankDisk) :=
    succeeds_after (Call.regular _) (by decide +kernel)
  have hf := formatted_blankDisk
  obtain ⟨e, he⟩ := exists_newEntry hf.valid hf.sound (creates_createFile _) (leadsTo_a _ _)
    (below_of_all (by decide)) hok
  have hunspoiled : Unspoiled wideGeometry 0 blankDisk [0x61] := fun _ _ hdvd =>
    absurd hdvd (by decide)
  have hrun : NameRun wideGeometry (fun _ => none) 0 (Unspoiled wideGeometry 0) blankDisk
      (after (createFile [0x2F, 0x61]) blankDisk) (insert e (dots 0)) :=
    .create .start (creates_createFile _) (leadsTo_a _ _) (below_of_all (by decide)) (by decide)
      hunspoiled hok he
  obtain ⟨found, hlooks, -, hfound⟩ := directory_lists_names hf.valid hf.sound .root
    (by unfold EmptyDir; exact hf.entries_root) hrun [0x61]
  obtain ⟨f, rfl, -⟩ := hfound e (Set.mem_insert e _) he.answers
  exact ⟨f, hlooks⟩

/-- A name that fills two records, and one that fills one. -/
def longName : Name := List.replicate 26 0x61
def shorterName : Name := List.replicate 13 0x62

/-- The disks of a run on a new volume: the first name is created, it is removed, and the second
one is created. -/
def spoiledDisk₁ : Disk := after (createFile (0x2F :: longName)) blankDisk
def spoiledDisk₂ : Disk := after (deleteFile (0x2F :: longName)) spoiledDisk₁
def spoiledDisk₃ : Disk := after (createFile (0x2F :: shorterName)) spoiledDisk₂

/-- **A lost name.**  The file whose creation has just succeeded is not found: the records of the
removed file add to its name. -/
theorem new_name_not_found :
    ∃ M, NameRun wideGeometry (fun _ => none) 0 (fun _ _ => True) blankDisk spoiledDisk₃ M ∧
      (∃ e ∈ M, e.Answers shorterName) ∧ Looks wideGeometry spoiledDisk₃ 0 shorterName none := by
  have hfirst : Succeeds (Call.createFile (0x2F :: longName)).run wideGeometry (fun _ => none)
      blankDisk spoiledDisk₁ := succeeds_after (Call.regular _) (by decide +kernel)
  have hremove : Succeeds (Call.deleteFile (0x2F :: longName)).run wideGeometry (fun _ => none)
      spoiledDisk₁ spoiledDisk₂ := succeeds_after (Call.regular _) (by decide +kernel)
  have hsecond : Succeeds (Call.createFile (0x2F :: shorterName)).run wideGeometry
      (fun _ => none) spoiledDisk₂ spoiledDisk₃ :=
    succeeds_after (Call.regular _) (by decide +kernel)
  have hlong : ∀ d, LeadsTo wideGeometry d (0x2F :: longName) 0 longName := fun d =>
    .last (by decide) (by decide) (by decide) (by decide)
  have hshorter : ∀ d, LeadsTo wideGeometry d (0x2F :: shorterName) 0 shorterName := fun d =>
    .last (by decide) (by decide) (by decide) (by decide)
  have hf := formatted_blankDisk
  have hstart : Run wideGeometry (fun _ => none) blankDisk blankDisk := .start
  have hrun₁ := hstart.call (below_of_all (by decide)) hfirst
  have hrun₂ := hrun₁.call (below_of_all (by decide)) hremove
  have hrun₃ := hrun₂.call (below_of_all (by decide)) hsecond
  obtain ⟨e₁, he₁⟩ := exists_newEntry hf.valid hf.sound (creates_createFile _) (hlong _)
    (below_of_all (by decide)) hfirst
  obtain ⟨e₂, he₂⟩ := exists_newEntry hf.valid (hrun₂.sound hf (by decide)).1
    (creates_createFile _) (hshorter _) (below_of_all (by decide)) hsecond
  have hname₁ : NameRun wideGeometry (fun _ => none) 0 (fun _ _ => True) blankDisk spoiledDisk₁ _ :=
    .create .start (creates_createFile _) (hlong _) (below_of_all (by decide)) (by decide) trivial
      hfirst he₁
  have hname₂ := NameRun.remove hname₁ (removes_deleteFile _) (hlong _) hremove
  have hname₃ := NameRun.create hname₂ (creates_createFile _) (hshorter _)
    (below_of_all (by decide)) (by decide) trivial hsecond he₂
  refine ⟨_, hname₃, ⟨e₂, Set.mem_insert e₂ _, he₂.answers⟩, ?_⟩
  have hlookup : lookup wideGeometry spoiledDisk₃ 0 shorterName = none :=
    Option.isNone_iff_eq_none.1 (by decide +kernel)
  have hlooks := (hrun₃.sound hf (by decide)).1.looks hf.valid .root shorterName
  rwa [hlookup] at hlooks

end Fat16

end BenmoshOS
