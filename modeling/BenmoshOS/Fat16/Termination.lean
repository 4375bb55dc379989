import BenmoshOS.Fat16.Loops

/-!
# FAT16: which calls come to an end

On every volume, whatever its FAT and its directories hold, and while no access fails: a call
of the public interface comes to an end exactly when the loops it enters that follow the disk
do.

* `Operation.LoopsEnd` — the walks, chains and searches of a call that have to end.
* `Operation.halts_iff` — a call returns, given enough rounds, exactly then.
* `self_link_never_ends` — a cluster that is linked to itself.
-/

namespace BenmoshOS

namespace Fat16

open Exec (Yields Halts)
open Fs

variable {α β : Type}

/-! ## The calls -/

section Calls

variable {g : Geometry} {d : Disk} {kmalloc : Nat → Option (Nat → UInt8)}

/-- A call that resolves its path first. -/
theorem halts_afterPath {f : Except Int (Nat × Name) → Fs β} {path : List UInt8}
    (hf : ∀ r, (f r).Regular) (herror : ∀ code, Halts ((f (.error code)).run g kmalloc (clean d))) :
    Halts ((resolvePath path >>= f).run g kmalloc (clean d)) ↔ PathEnds g d path ∧
      ∀ D name, LeadsTo g d path D name → Halts ((f (.ok (D, name))).run g kmalloc (clean d)) := by
  rw [halts_bind (regular_resolvePath path) hf, ← halts_resolvePath kmalloc]
  constructor
  · rintro ⟨⟨r, io⟩, hp, hhalts⟩
    obtain ⟨hio, hlast⟩ := yields_resolvePath hp
    obtain rfl : io = clean d := hio
    refine ⟨hp.halts, fun D name hlead => ?_⟩
    obtain rfl : r = .ok (D, name) := (hlast D name).1 hlead
    exact hhalts
  · rintro ⟨⟨⟨r, io⟩, hp⟩, hhalts⟩
    obtain ⟨hio, hlast⟩ := yields_resolvePath hp
    obtain rfl : io = clean d := hio
    refine ⟨(r, clean d), hp, ?_⟩
    cases r with
    | error code => exact herror code
    | ok q => exact hhalts q.1 q.2 ((hlast q.1 q.2).2 rfl)

/-- A call that looks a name up first. -/
theorem halts_afterLookup {f : Option Found → Fs β} {site : Site} {D : Nat} {name : Name}
    (hf : ∀ r, (f r).Regular) (hends : LookupEnds g d D name) :
    Halts ((findInDir site D name >>= f).run g kmalloc (clean d)) ↔
      ∀ found, Looks g d D name found → Halts ((f found).run g kmalloc (clean d)) := by
  obtain ⟨found, hfound⟩ := lookupEnds_iff.1 hends
  have hyields : Yields ((findInDir site D name).run g kmalloc (clean d)) (found, clean d) :=
    (yields_findInDir site).2 ⟨hfound, rfl⟩
  rw [halts_bind_of_yields (regular_findInDir _ _ _) hf hyields]
  constructor
  · intro h found' hfound'
    rwa [hfound'.unique hfound]
  · exact fun h => h found hfound

theorem LeadsTo.lookupEnds {path : List UInt8} {D : Nat} {name : Name}
    (h : LeadsTo g d path D name) (hpath : PathEnds g d path) : LookupEnds g d D name :=
  hpath D name true h

/-- The part of `fat16_write_file` behind the lookups ends: the chain of a file that is
appended to does. -/
def EntryEnds (g : Geometry) (d : Disk) (append : Bool) (found : Found) : Prop :=
  found.entry.isDirectory = false → append = true → ChainEnds g d found.entry.startingCluster

theorem regular_prepareWrite (append : Bool) (startingCluster : Nat) :
    (prepareWrite append startingCluster).Regular := by
  refine regular_ite (regular_ite ?_ (total_pure _).regular) (Total.regular ?_)
  · exact (regular_loop (fun p => (total_walkRound p).regular) _).bind fun _ => (total_pure _).regular
  · exact (total_when (total_freeChain _)).bind fun _ => total_pure _

theorem regular_writeLoop (data : List UInt8) (append : Bool) (fileSize : Nat) (st : WriteState) :
    (Fs.loop (writeRound data append fileSize) st).Regular :=
  regular_loop (fun st => (total_writeRound data append fileSize st).regular) st

theorem total_finishWrite (found : Found) (append : Bool) (length : Nat) (r : Except Int Nat) :
    Fs.Total (match r with
      | .error res => pure res
      | .ok firstCluster => updateDir found (found.entry.withChain firstCluster
          (if append then wrap32 (found.entry.fileSize + length) else length))) := by
  cases r with
  | error res => exact total_pure _
  | ok firstCluster => exact total_updateDir _ _

theorem regular_writeTail (found : Found) (data : List UInt8) (append : Bool) (st : WriteState) :
    Fs.Regular (do
      match ← Fs.loop (writeRound data append found.entry.fileSize) st with
      | .error res => pure res
      | .ok firstCluster => updateDir found (found.entry.withChain firstCluster
          (if append then wrap32 (found.entry.fileSize + data.length) else data.length))) :=
  (regular_writeLoop _ _ _ _).bind fun r => (total_finishWrite found append data.length r).regular

theorem regular_writeEntry (found : Found) (data : List UInt8) (append : Bool) :
    (writeEntry found data append).Regular := by
  refine regular_ite (total_pure _).regular (regular_ite (Total.regular ?_) ?_)
  · exact (total_when (total_freeChain _)).bind fun _ => total_updateDir _ _
  · exact (regular_prepareWrite _ _).bind (regular_writeTail found data append)

theorem halts_prepareWrite (kmalloc : Nat → Option (Nat → UInt8)) (append : Bool)
    (start : Nat) :
    Halts ((prepareWrite append start).run g kmalloc (clean d)) ↔
      (append = true → ChainEnds g d start) := by
  cases append with
  | false =>
      refine iff_of_true ?_ (by simp)
      exact ((total_when (total_freeChain _)).bind fun _ => total_pure _).halts g kmalloc _
  | true =>
      by_cases hstart : 2 ≤ start
      · have hrun : prepareWrite true start = (Fs.loop walkRound (start, 0) >>= fun r =>
            pure ⟨start, r.1, r.2, 0⟩) := if_pos hstart
        rw [hrun, halts_bind (regular_loop (fun p => (total_walkRound p).regular) _)
          fun _ => (total_pure _).regular]
        simp only [forall_const]
        rw [← halts_appendWalk kmalloc]
        constructor
        · rintro ⟨p, hp, -⟩
          exact hp.halts
        · rintro ⟨p, hp⟩
          exact ⟨p, hp, _, 0, rfl⟩
      · have hrun : prepareWrite true start = pure ⟨start, 0, 0, 0⟩ := if_neg hstart
        rw [hrun]
        exact iff_of_true ⟨_, 0, rfl⟩ fun _ => ⟨0, fun hlive => hstart hlive.1⟩

theorem halts_writeEntry (found : Found) (data : List UInt8) (append : Bool) :
    Halts ((writeEntry found data append).run g kmalloc (clean d)) ↔
      EntryEnds g d append found := by
  unfold EntryEnds
  by_cases hdir : found.entry.isDirectory = true
  · have hrun : writeEntry found data append = pure (-eisdir) := if_pos hdir
    rw [hrun]
    exact iff_of_true ⟨_, 0, rfl⟩ fun h => absurd (hdir.symm.trans h) (by simp)
  · simp only [Bool.not_eq_true] at hdir
    simp only [hdir, forall_const]
    by_cases hempty : append = false ∧ data.length = 0
    · have hrun : writeEntry found data append = (do
          Fs.when (2 ≤ found.entry.startingCluster) (freeChain found.entry.startingCluster)
          updateDir found (found.entry.withChain 0 0)) :=
        (if_neg (by simp [hdir])).trans (if_pos hempty)
      rw [hrun]
      refine iff_of_true ?_ (by simp [hempty.1])
      exact ((total_when (total_freeChain _)).bind fun _ => total_updateDir _ _).halts g kmalloc _
    · have hrun : writeEntry found data append = (do
          let st ← prepareWrite append found.entry.startingCluster
          match ← Fs.loop (writeRound data append found.entry.fileSize) st with
          | .error res => pure res
          | .ok firstCluster => updateDir found (found.entry.withChain firstCluster
              (if append then wrap32 (found.entry.fileSize + data.length) else data.length))) :=
        (if_neg (by simp [hdir])).trans (if_neg hempty)
      rw [hrun, halts_bind (regular_prepareWrite _ _) (regular_writeTail found data append),
        ← halts_prepareWrite kmalloc]
      constructor
      · rintro ⟨p, hp, -⟩
        exact hp.halts
      · rintro ⟨p, hp⟩
        refine ⟨p, hp, (halts_bind (regular_writeLoop _ _ _ _) fun r =>
          (total_finishWrite found append data.length r).regular).2 ?_⟩
        obtain ⟨d₁, hclean⟩ := (regular_prepareWrite _ _).clean_of_yields hp
        rw [hclean]
        obtain ⟨q, hq⟩ : Halts ((Fs.loop (writeRound data append found.entry.fileSize) p.1).run g
            kmalloc (clean d₁)) := halts_writeLoop data append found.entry.fileSize p.1 d₁
        obtain ⟨d₂, hclean⟩ := (regular_writeLoop _ _ _ _).clean_of_yields hq
        refine ⟨q, hq, ?_⟩
        rw [hclean]
        exact (total_finishWrite found append data.length q.1).halts g kmalloc d₂

/-- A call that resolves its path and looks the last component up. -/
def onEntry (path : List UInt8) (refuse : Int → β) (site : Site)
    (f : Nat → Name → Option Found → Fs β) : Fs β := do
  match ← resolvePath path with
  | .error res => pure (refuse res)
  | .ok (D, name) => findInDir site D name >>= f D name

/-- What such a call does when its path has been resolved, or refused. -/
theorem regular_afterPath {refuse : Int → β} {site : Site} {f : Nat → Name → Option Found → Fs β}
    (hf : ∀ D name r, (f D name r).Regular) (r : Except Int (Nat × Name)) :
    Fs.Regular (match r with
      | .error res => pure (refuse res)
      | .ok (D, name) => findInDir site D name >>= f D name : Fs β) := by
  cases r with
  | error res => exact (total_pure _).regular
  | ok q => exact (regular_findInDir _ _ _).bind (hf q.1 q.2)

theorem regular_onEntry {path : List UInt8} {refuse : Int → β} {site : Site}
    {f : Nat → Name → Option Found → Fs β} (hf : ∀ D name r, (f D name r).Regular) :
    (onEntry path refuse site f).Regular :=
  (regular_resolvePath path).bind (regular_afterPath hf)

/-- Such a call ends when its path does, and what it does with the entry. -/
theorem halts_onEntry {path : List UInt8} {refuse : Int → β} {site : Site}
    {f : Nat → Name → Option Found → Fs β} (hf : ∀ D name r, (f D name r).Regular) :
    Halts ((onEntry path refuse site f).run g kmalloc (clean d)) ↔ PathEnds g d path ∧
      ∀ D name found, LeadsTo g d path D name → Looks g d D name found →
        Halts ((f D name found).run g kmalloc (clean d)) := by
  unfold onEntry
  rw [halts_afterPath ?_ fun code => ⟨_, 0, rfl⟩]
  · refine and_congr_right fun hpath => ?_
    constructor
    · intro h D name found hlead hlooks
      exact (halts_afterLookup (hf D name) (hlead.lookupEnds hpath)).1 (h D name hlead) found hlooks
    · intro h D name hlead
      exact (halts_afterLookup (hf D name) (hlead.lookupEnds hpath)).2
        fun found hlooks => h D name found hlead hlooks
  · exact regular_afterPath hf

/-! ### One by one -/

/-- A call of the public interface. -/
inductive Operation where
  | loadFile (path : List UInt8)
  | createFile (path : List UInt8)
  | writeFile (path data : List UInt8) (append : Bool)
  | deleteFile (path : List UInt8)
  | removeDirectory (path : List UInt8)
  | listDirectory (path : List UInt8)

/-- The call returns, given enough rounds for its loops; no access fails. -/
def Operation.Halts (g : Geometry) (kmalloc : Nat → Option (Nat → UInt8)) (d : Disk) :
    Operation → Prop
  | .loadFile path => Exec.Halts ((Fat16.loadFile path).run g kmalloc (clean d))
  | .createFile path => Exec.Halts ((Fat16.createFile path).run g kmalloc (clean d))
  | .writeFile path data append =>
      Exec.Halts ((Fat16.writeFile path data append).run g kmalloc (clean d))
  | .deleteFile path => Exec.Halts ((Fat16.deleteFile path).run g kmalloc (clean d))
  | .removeDirectory path => Exec.Halts ((Fat16.removeDirectory path).run g kmalloc (clean d))
  | .listDirectory path => Exec.Halts ((Fat16.listDirectory path).run g kmalloc (clean d))

/-- The loops of the call that follow the disk come to an end on it. -/
def Operation.LoopsEnd (g : Geometry) (d : Disk) : Operation → Prop
  | .loadFile path => PathEnds g d path
  | .deleteFile path => PathEnds g d path
  | .createFile path => PathEnds g d path ∧
      ∀ D name, LeadsTo g d path D name → Looks g d D name none → InsertEnds g d D name
  | .writeFile path _ append => PathEnds g d path ∧
      ∀ D name, LeadsTo g d path D name →
        (∀ found, Looks g d D name (some found) → EntryEnds g d append found) ∧
        (Looks g d D name none → InsertEnds g d D name ∧
          -- the new file is looked up once more, on the disk with its entry
          ∀ d', WithEntry g d D name d' → LookupEnds g d' D name ∧
            ∀ found, Looks g d' D name (some found) → EntryEnds g d' append found)
  | .removeDirectory path => PathEnds g d path ∧
      ∀ D name found, LeadsTo g d path D name → Looks g d D name (some found) →
        found.entry.isDirectory = true →
        WalkEnds g d emptyCheckCallback found.entry.startingCluster 0
  | .listDirectory path => cString path = [] ∨ cString path = [slash] ∨ PathEnds g d path ∧
      ∀ D name found, LeadsTo g d path D name → Looks g d D name (some found) →
        found.entry.isDirectory = true →
        WalkEnds g d listDirCallback found.entry.startingCluster ListCtx.zero

/-- `fat16_load_file` behind the lookup. -/
def loadFound : Option Found → Fs (Option ((Nat → UInt8) × Nat))
  | none => pure none
  | some ⟨entry, _, _⟩ =>
      if entry.isDirectory then pure none
      else if entry.fileSize = 0 then do
        match ← Fs.kmalloc 1 with
        | none => pure none
        | some emptyBuffer => pure (some (setByte emptyBuffer 0 0, 0))
      else do
        match ← Fs.kmalloc entry.fileSize with
        | none => pure none
        | some ramBuffer =>
            match ← Fs.loop loadCluster
                ⟨entry.startingCluster, entry.fileSize, 0, ramBuffer⟩ with
            | none => pure none
            | some buffer => pure (some (buffer, entry.fileSize))

theorem loadFile_eq (path : List UInt8) :
    loadFile path = onEntry path (fun _ => none) .target fun _ _ => loadFound := rfl

/-- `fat16_create_file` behind the lookup. -/
def createFound (D : Nat) (name : Name) : Option Found → Fs Int
  | some _ => pure (-eexist)
  | none => insertEntry D name attrArchive 0 0

theorem createFile_eq (path : List UInt8) :
    createFile path = onEntry path id .existing createFound := rfl

/-- `fat16_delete_file` behind the lookup. -/
def deleteFound : Option Found → Fs Int
  | none => pure (-enoent)
  | some found =>
      if found.entry.isDirectory then pure (-eisdir)
      else do
        Fs.when (2 ≤ found.entry.startingCluster) (freeChain found.entry.startingCluster)
        markDeleted found

theorem deleteFile_eq (path : List UInt8) :
    deleteFile path = onEntry path id .target fun _ _ => deleteFound := rfl

/-- `fat16_remove_directory` behind the lookup. -/
def removeFound : Option Found → Fs Int
  | none => pure (-enoent)
  | some found =>
      if found.entry.isDirectory then do
        let r ← iterateDirectory .emptyCheck found.entry.startingCluster emptyCheckCallback 0
        if 0 < r.2 then pure (-enotempty)
        else do
          freeChain found.entry.startingCluster
          markDeleted found
      else pure (-enotdir)

theorem removeDirectory_eq (path : List UInt8) :
    removeDirectory path = onEntry path id .directory fun _ _ => removeFound := rfl

/-- `fat16_list_directory` behind the lookup. -/
def listFound : Option Found → Fs (Int × List Line)
  | none => pure (-enoent, [])
  | some found =>
      if found.entry.isDirectory then listFrom found.entry.startingCluster
      else pure (-enotdir, [])

theorem listDirectory_eq (path : List UInt8) :
    listDirectory path = if cString path = [] ∨ cString path = [slash] then listFrom 0
      else onEntry path (fun res => (res, [])) .listing fun _ _ => listFound := rfl

/-- `fat16_write_file` behind the lookup. -/
def writeFound (data : List UInt8) (append : Bool) (D : Nat) (name : Name) :
    Option Found → Fs Int
  | some found => writeEntry found data append
  | none => do
      let res ← insertEntry D name attrArchive 0 0
      if res ≠ eok then pure res
      else
        match ← findInDir .target D name with
        | none => pure (-enoent)
        | some found => writeEntry found data append

theorem writeFile_eq (path data : List UInt8) (append : Bool) :
    writeFile path data append = onEntry path id .existing (writeFound data append) := rfl

/-! ### What follows the lookup -/

theorem regular_loadLoop (st : LoadState) : (Fs.loop loadCluster st).Regular :=
  regular_loop (fun st => (total_loadCluster st).regular) st

theorem total_loadResult (size : Nat) (r : Option (Nat → UInt8)) :
    Fs.Total (match r with
      | none => pure none
      | some buffer => pure (some (buffer, size)) : Fs (Option ((Nat → UInt8) × Nat))) := by
  cases r with
  | none => exact total_pure _
  | some buffer => exact total_pure _

theorem regular_loadFound (found : Option Found) : (loadFound found).Regular := by
  cases found with
  | none => exact (total_pure _).regular
  | some found =>
      refine regular_ite (total_pure _).regular (regular_ite ?_ ?_)
      · refine (total_kmalloc _).regular.bind fun buffer => ?_
        cases buffer with
        | none => exact (total_pure _).regular
        | some buffer => exact (total_pure _).regular
      · refine (total_kmalloc _).regular.bind fun buffer => ?_
        cases buffer with
        | none => exact (total_pure _).regular
        | some buffer =>
            exact (regular_loadLoop _).bind fun r => (total_loadResult _ r).regular

theorem halts_loadFound (found : Option Found) (d : Disk) :
    Halts ((loadFound found).run g kmalloc (clean d)) := by
  cases found with
  | none => exact ⟨_, 0, rfl⟩
  | some found =>
      obtain ⟨entry, sector, idx⟩ := found
      simp only [loadFound]
      split
      · exact ⟨_, 0, rfl⟩
      · split
        · refine Total.halts ((total_kmalloc _).bind fun buffer => ?_) g kmalloc d
          cases buffer with
          | none => exact total_pure _
          | some buffer => exact total_pure _
        · have hbuffer : Yields ((Fs.kmalloc entry.fileSize).run g kmalloc (clean d))
              (kmalloc entry.fileSize, clean d) := ⟨0, rfl⟩
          rw [halts_bind_of_yields (total_kmalloc _).regular ?_ hbuffer]
          · cases kmalloc entry.fileSize with
            | none => exact ⟨_, 0, rfl⟩
            | some buffer =>
                refine (halts_bind (regular_loadLoop _) fun r => (total_loadResult _ r).regular).2 ?_
                obtain ⟨p, hp⟩ := halts_loadLoop (g := g)
                  ⟨entry.startingCluster, entry.fileSize, 0, buffer⟩ d
                obtain ⟨d', hclean⟩ := (regular_loadLoop _).clean_of_yields hp
                refine ⟨p, hp, ?_⟩
                rw [hclean]
                exact (total_loadResult _ p.1).halts g kmalloc d'
          · intro buffer
            cases buffer with
            | none => exact (total_pure _).regular
            | some buffer =>
                exact (regular_loadLoop _).bind fun r => (total_loadResult _ r).regular

theorem total_deleteFound (found : Option Found) : (deleteFound found).Total := by
  cases found with
  | none => exact total_pure _
  | some found =>
      refine total_ite (total_pure _) ?_
      exact (total_when (total_freeChain _)).bind fun _ => total_markDeleted _

theorem total_removeTail (found : Found) (r : Int × Nat) :
    Fs.Total (if 0 < r.2 then pure (-enotempty)
      else do
        freeChain found.entry.startingCluster
        markDeleted found : Fs Int) :=
  total_ite (total_pure _) ((total_freeChain _).bind fun _ => total_markDeleted _)

theorem regular_removeFound (found : Option Found) : (removeFound found).Regular := by
  cases found with
  | none => exact (total_pure _).regular
  | some found =>
      refine regular_ite ?_ (total_pure _).regular
      exact (regular_iterateDirectory _ _ _ _).bind fun r => (total_removeTail found r).regular

/-- A call that ends after it has iterated over a directory. -/
theorem halts_afterIteration {κ : Type} {f : Int × κ → Fs β} {site : Site} {D : Nat}
    {callback : Visitor κ} {context : κ} (hf : ∀ r, (f r).Total) :
    Halts ((iterateDirectory site D callback context >>= f).run g kmalloc (clean d)) ↔
      WalkEnds g d callback D context := by
  rw [halts_bind (regular_iterateDirectory _ _ _ _) fun r => (hf r).regular,
    ← halts_iterateDirectory site]
  constructor
  · rintro ⟨p, hp, -⟩
    exact hp.halts
  · rintro ⟨p, hp⟩
    obtain ⟨d', hclean⟩ := (regular_iterateDirectory _ _ _ _).clean_of_yields hp
    refine ⟨p, hp, ?_⟩
    rw [hclean]
    exact (hf p.1).halts g kmalloc d'

theorem halts_removeFound (found : Option Found) :
    Halts ((removeFound found).run g kmalloc (clean d)) ↔
      ∀ f, found = some f → f.entry.isDirectory = true →
        WalkEnds g d emptyCheckCallback f.entry.startingCluster 0 := by
  cases found with
  | none => exact iff_of_true ⟨_, 0, rfl⟩ (by simp)
  | some found =>
      simp only [removeFound, Option.some.injEq, forall_eq']
      by_cases hdir : found.entry.isDirectory = true
      · simp only [hdir, if_true, forall_const]
        exact halts_afterIteration (total_removeTail found)
      · simp only [hdir, Bool.false_eq_true, if_false, IsEmpty.forall_iff, iff_true]
        exact ⟨_, 0, rfl⟩

theorem regular_listFrom (D : Nat) : (listFrom D).Regular :=
  (regular_iterateDirectory _ _ _ _).bind fun _ => (total_pure _).regular

theorem regular_listFound (found : Option Found) : (listFound found).Regular := by
  cases found with
  | none => exact (total_pure _).regular
  | some found => exact regular_ite (regular_listFrom _) (total_pure _).regular

theorem halts_listFound (found : Option Found) :
    Halts ((listFound found).run g kmalloc (clean d)) ↔
      ∀ f, found = some f → f.entry.isDirectory = true →
        WalkEnds g d listDirCallback f.entry.startingCluster ListCtx.zero := by
  cases found with
  | none => exact iff_of_true ⟨_, 0, rfl⟩ (by simp)
  | some found =>
      simp only [listFound, Option.some.injEq, forall_eq']
      by_cases hdir : found.entry.isDirectory = true
      · simp only [hdir, if_true, forall_const]
        exact halts_afterIteration fun _ => total_pure _
      · simp only [hdir, Bool.false_eq_true, if_false, IsEmpty.forall_iff, iff_true]
        exact ⟨_, 0, rfl⟩

theorem regular_createFound (D : Nat) (name : Name) (found : Option Found) :
    (createFound D name found).Regular := by
  cases found with
  | none => exact regular_insertEntry _ _ _ _ _
  | some found => exact (total_pure _).regular

theorem halts_createFound (D : Nat) (name : Name) (found : Option Found) :
    Halts ((createFound D name found).run g kmalloc (clean d)) ↔
      (found = none → InsertEnds g d D name) := by
  cases found with
  | none => simpa [createFound] using halts_insertEntry
  | some found => exact iff_of_true ⟨_, 0, rfl⟩ (by simp)

theorem regular_writeAgain (data : List UInt8) (append : Bool) (found : Option Found) :
    Fs.Regular (match found with
      | none => pure (-enoent)
      | some found => writeEntry found data append) := by
  cases found with
  | none => exact (total_pure _).regular
  | some found => exact regular_writeEntry _ _ _

theorem regular_writeNew (data : List UInt8) (append : Bool) (D : Nat) (name : Name) (res : Int) :
    Fs.Regular (if res ≠ eok then pure res else (do
      match ← findInDir .target D name with
      | none => pure (-enoent)
      | some found => writeEntry found data append)) :=
  regular_ite (total_pure _).regular ((regular_findInDir _ _ _).bind (regular_writeAgain data append))

theorem regular_writeFound (data : List UInt8) (append : Bool) (D : Nat) (name : Name)
    (found : Option Found) : (writeFound data append D name found).Regular := by
  cases found with
  | none => exact (regular_insertEntry _ _ _ _ _).bind (regular_writeNew data append D name)
  | some found => exact regular_writeEntry _ _ _

theorem halts_writeAgain (data : List UInt8) (append : Bool) (D : Nat) (name : Name) :
    Halts (Fs.run (do
      match ← findInDir .target D name with
      | none => pure (-enoent)
      | some found => writeEntry found data append) g kmalloc (clean d)) ↔
      LookupEnds g d D name ∧
        ∀ found, Looks g d D name (some found) → EntryEnds g d append found := by
  constructor
  · intro h
    obtain ⟨⟨found, io⟩, hp, -⟩ := (halts_bind (regular_findInDir _ _ _)
      (regular_writeAgain data append)).1 h
    have hends : LookupEnds g d D name := lookupEnds_iff.2 ⟨found, ((yields_findInDir _).1 hp).1⟩
    refine ⟨hends, fun found hfound => ?_⟩
    exact (halts_writeEntry found data append).1
      ((halts_afterLookup (regular_writeAgain data append) hends).1 h (some found) hfound)
  · rintro ⟨hends, h⟩
    refine (halts_afterLookup (regular_writeAgain data append) hends).2 fun found hfound => ?_
    cases found with
    | none => exact ⟨_, 0, rfl⟩
    | some found => exact (halts_writeEntry found data append).2 (h found hfound)

theorem halts_writeFound (data : List UInt8) (append : Bool) (D : Nat) (name : Name)
    (found : Option Found) :
    Halts ((writeFound data append D name found).run g kmalloc (clean d)) ↔
      (∀ f, found = some f → EntryEnds g d append f) ∧
      (found = none → InsertEnds g d D name ∧
        ∀ d', WithEntry g d D name d' → LookupEnds g d' D name ∧
          ∀ f, Looks g d' D name (some f) → EntryEnds g d' append f) := by
  cases found with
  | some found =>
      simp only [Option.some.injEq, forall_eq', reduceCtorEq, IsEmpty.forall_iff, and_true]
      exact halts_writeEntry found data append
  | none =>
      simp only [reduceCtorEq, IsEmpty.forall_iff, implies_true, forall_const, true_and]
      have hbind : Halts ((writeFound data append D name none).run g kmalloc (clean d)) ↔ _ :=
        halts_bind (regular_insertEntry _ _ _ _ _) (regular_writeNew data append D name)
      rw [hbind]
      constructor
      · rintro ⟨p, hp, hhalts⟩
        refine ⟨halts_insertEntry.1 hp.halts, ?_⟩
        rintro d' ⟨a, r, hfree, hiter, hdone, rfl⟩
        -- the insertion has yielded the disk with the entry
        have hp' : Yields ((insertEntry D name attrArchive 0 0).run g kmalloc (clean d)) _ :=
          yields_insertEntry.2 ⟨a, r, hfree, hiter, rfl⟩
        rw [if_pos hdone] at hp'
        obtain rfl := hp.unique ((regular_insertEntry _ _ _ _ _).mono g kmalloc _) hp'
        exact (halts_writeAgain data append D name).1 hhalts
      · rintro ⟨hends, hnew⟩
        obtain ⟨p, hp⟩ := halts_insertEntry.2 hends
        refine ⟨p, hp, ?_⟩
        obtain ⟨a, r, hfree, hiter, rfl⟩ := yields_insertEntry.1 hp
        by_cases hdone : r.2.done = true
        · rw [if_pos hdone]
          exact (halts_writeAgain data append D name).2 (hnew _ ⟨a, r, hfree, hiter, hdone, rfl⟩)
        · rw [if_neg hdone]
          exact ⟨_, 0, rfl⟩

/-- **Termination.**  On every volume, a call comes to an end exactly when the walks it makes
through directories and chains do, and the search for a short name. -/
theorem Operation.halts_iff (g : Geometry) (kmalloc : Nat → Option (Nat → UInt8)) (d : Disk)
    (op : Operation) : op.Halts g kmalloc d ↔ op.LoopsEnd g d := by
  cases op with
  | loadFile path =>
      rw [Operation.Halts, loadFile_eq, halts_onEntry fun _ _ => regular_loadFound]
      exact and_iff_left fun _ _ found _ _ => halts_loadFound found _
  | deleteFile path =>
      rw [Operation.Halts, deleteFile_eq, halts_onEntry fun _ _ r => (total_deleteFound r).regular]
      exact and_iff_left fun _ _ found _ _ => (total_deleteFound found).halts g kmalloc _
  | createFile path =>
      rw [Operation.Halts, createFile_eq, halts_onEntry regular_createFound]
      refine and_congr_right fun _ => ?_
      constructor
      · intro h D name hlead hnone
        exact (halts_createFound D name none).1 (h D name none hlead hnone) rfl
      · intro h D name found hlead hlooks
        refine (halts_createFound D name found).2 ?_
        rintro rfl
        exact h D name hlead hlooks
  | writeFile path data append =>
      rw [Operation.Halts, writeFile_eq, halts_onEntry (regular_writeFound data append)]
      refine and_congr_right fun _ => ?_
      constructor
      · intro h D name hlead
        refine ⟨fun found hlooks => ?_, fun hlooks => ?_⟩
        · exact ((halts_writeFound data append D name _).1 (h D name _ hlead hlooks)).1 found rfl
        · exact ((halts_writeFound data append D name _).1 (h D name _ hlead hlooks)).2 rfl
      · intro h D name found hlead hlooks
        refine (halts_writeFound data append D name found).2 ⟨?_, ?_⟩
        · rintro f rfl
          exact (h D name hlead).1 f hlooks
        · rintro rfl
          exact (h D name hlead).2 hlooks
  | removeDirectory path =>
      rw [Operation.Halts, removeDirectory_eq, halts_onEntry fun _ _ => regular_removeFound]
      refine and_congr_right fun _ => ?_
      constructor
      · intro h D name found hlead hlooks
        exact (halts_removeFound _).1 (h D name _ hlead hlooks) found rfl
      · intro h D name found hlead hlooks
        refine (halts_removeFound found).2 ?_
        rintro f rfl
        exact h D name f hlead hlooks
  | listDirectory path =>
      rw [Operation.Halts, listDirectory_eq, Operation.LoopsEnd, ← or_assoc]
      by_cases hroot : cString path = [] ∨ cString path = [slash]
      · rw [if_pos hroot]
        refine iff_of_true ?_ (Or.inl hroot)
        exact (halts_afterIteration fun _ => total_pure _).2 (Or.inl rfl)
      · rw [if_neg hroot, halts_onEntry fun _ _ => regular_listFound, or_iff_right hroot]
        refine and_congr_right fun _ => ?_
        constructor
        · intro h D name found hlead hlooks
          exact (halts_listFound _).1 (h D name _ hlead hlooks) found rfl
        · intro h D name found hlead hlooks
          refine (halts_listFound found).2 ?_
          rintro f rfl
          exact h D name f hlead hlooks

/-- The calls that insert nothing end on a volume without an endless chain. -/
theorem loopsEnd_of_chainsEnd (h : ∀ c, ChainEnds g d c) (path : List UInt8) :
    Operation.LoopsEnd g d (.loadFile path) ∧ Operation.LoopsEnd g d (.deleteFile path) ∧
      Operation.LoopsEnd g d (.removeDirectory path) ∧
      Operation.LoopsEnd g d (.listDirectory path) := by
  have hpath : PathEnds g d path := fun D _ _ _ => (h D).walkEnds _ _
  exact ⟨hpath, hpath, ⟨hpath, fun _ _ _ _ _ _ => (h _).walkEnds _ _⟩,
    Or.inr (Or.inr ⟨hpath, fun _ _ _ _ _ _ => (h _).walkEnds _ _⟩)⟩

end Calls

/-! ## A cluster that is linked to itself -/

/-- A volume of two clusters. -/
def tinyGeometry : Geometry := .small 1 1 1 2 (by decide)

/-- The root holds one entry, `D`, whose cluster 2 is linked to itself and full of
tombstones. -/
def loopDisk (attributes : UInt8) : Disk := fun lba =>
  if lba = 1 then setU16 (fun _ => 0) 4 2
  else if lba = 2 then setRecord (fun _ => 0) 0 (sfnRecord (padTo 11 [0x44]) attributes 2 1)
  else fun _ => 0xE5

theorem fat_loopDisk (attributes : UInt8) (k : Nat) :
    (fat tinyGeometry (loopDisk attributes))^[k] 2 = 2 :=
  Function.iterate_fixed rfl k

/-- Tombstones do not stop a lookup. -/
theorem visitList_tombstones (name : Name) (base : Nat) {rs : List Record}
    (h : ∀ r ∈ rs, r 0 = 0xE5) (p : Nat) (ctx : FindCtx) :
    (visitList (findFileCallback name) base rs p ctx).1 = none := by
  induction rs generalizing p ctx with
  | nil => rfl
  | cons r rs ih =>
      have hr := h r (List.mem_cons_self ..)
      have hgo : findFileCallback name (base + p / 16) (p % 16) r ctx =
          (0, { ctx with lfnBuffer := clearBuffer ctx.lfnBuffer }) := by
        rw [findFileCallback, if_neg (by rw [hr]; decide), if_pos hr]
      rw [visitList_go hgo]
      exact ih (fun r' hr' => h r' (List.mem_cons_of_mem _ hr')) _ _

theorem not_lookupEnds_loopDisk (attributes : UInt8) (name : Name) :
    ¬ LookupEnds tinyGeometry (loopDisk attributes) 2 name := by
  rintro (hroot | ⟨k, hlive | hstop⟩)
  · exact absurd hroot (by decide)
  · rw [fat_loopDisk] at hlive
    exact hlive (by decide)
  · rw [fat_loopDisk] at hstop
    refine hstop (visitList_tombstones name _ ?_ _ _)
    intro r hr
    obtain ⟨p, -, rfl⟩ := List.mem_map.1 hr
    have hlba : tinyGeometry.clusterLba 2 + p / 16 = 3 + p / 16 := rfl
    rw [slotAt, recordAt_of_lt (by decide), hlba, loopDisk, if_neg (by omega), if_neg (by omega)]

/-- The entry `D` of the root. -/
def loopEntry (attributes : UInt8) : Found := ⟨recordAt (loopDisk attributes 2) 0, 2, 0⟩

/-- A lookup in the root directory that stops at its first slot. -/
theorem looks_first {g : Geometry} {d : Disk} {name : Name} (hroot : 0 < g.rootDirSizeSectors)
    (hentry : (recordAt (d g.rootDirSector) 0).IsEntry)
    (hmatch : Visit.Matches name
      ⟨0, FindCtx.zero.lfnBuffer, recordAt (d g.rootDirSector) 0⟩) :
    Looks g d 0 name (some ⟨recordAt (d g.rootDirSector) 0, g.rootDirSector, 0⟩) := by
  have hvisit : visitList (findFileCallback name) g.rootDirSector
      (slots d g.rootDirSector 0 (16 * g.rootDirSizeSectors)) 0 FindCtx.zero =
      (some eok, ⟨⟨recordAt (d g.rootDirSector) 0, g.rootDirSector, 0⟩,
        setU32 FindCtx.zero.lfnBuffer 256 1⟩) := by
    obtain ⟨n, hn⟩ : ∃ n, 16 * g.rootDirSizeSectors = n + 1 :=
      ⟨16 * g.rootDirSizeSectors - 1, by omega⟩
    rw [hn, slots_succ]
    exact visitList_end (findFileCallback_match hentry hmatch) _
  refine ⟨(eok, ⟨_, setU32 FindCtx.zero.lfnBuffer 256 1⟩), ⟨0, ?_⟩, if_pos (found_setU32 _ _)⟩
  rw [iterate, if_pos rfl, hvisit]
  rfl

/-- Neither does `fat16_load_file` of a file in the directory `D` come to an end, nor
`fat16_write_file` that appends to the file `D`. -/
theorem self_link_never_ends :
    ¬ Operation.Halts tinyGeometry (fun _ => none) (loopDisk attrDirectory)
        (.loadFile [0x2F, 0x44, 0x2F, 0x58]) ∧
      ¬ Operation.Halts tinyGeometry (fun _ => none) (loopDisk attrArchive)
        (.writeFile [0x2F, 0x44] [0x41] true) := by
  constructor
  · intro h
    rw [Operation.Halts, loadFile_eq, halts_onEntry fun _ _ => regular_loadFound] at h
    refine not_lookupEnds_loopDisk attrDirectory [0x58] (h.1 2 [0x58] true ?_)
    have hlooks : Looks tinyGeometry (loopDisk attrDirectory) 0 [0x44]
        (some (loopEntry attrDirectory)) :=
      looks_first (by decide) ⟨by decide, by decide, by decide⟩ (by decide)
    exact .down (by decide) (by decide) (by decide) hlooks (by decide)
      (.last (by decide) (by decide) (by decide) (by decide))
  · intro h
    rw [Operation.Halts, writeFile_eq, halts_onEntry (regular_writeFound _ _)] at h
    have hlooks : Looks tinyGeometry (loopDisk attrArchive) 0 [0x44]
        (some (loopEntry attrArchive)) :=
      looks_first (by decide) ⟨by decide, by decide, by decide⟩ (by decide)
    have hwrite := h.2 0 [0x44] _ (.last (by decide) (by decide) (by decide) (by decide)) hlooks
    obtain ⟨k, hk⟩ := ((halts_writeFound _ _ _ _ _).1 hwrite).1 _ rfl (by decide) rfl
    have hstart : (loopEntry attrArchive).entry.startingCluster = 2 := by decide
    rw [hstart, fat_loopDisk] at hk
    exact hk (by decide)

end Fat16

end BenmoshOS
