import BenmoshOS.Fat16.Directory
import BenmoshOS.Fat16.Fence

/-!
# FAT16: walks through directories that may not end

`iterate_directory` follows the links of a directory on the disk whatever they are, so a
lookup, and with it the resolution of a path, need not come to an end.  This file says when
they do, on every disk, while no access fails.

* `WalkEnds` — what the disk must hold for a walk to end; `halts_iterateDirectory` says that
  this is when `iterate_directory` does.
* `Looks` — what a lookup that ends finds.
* `Asks` — the lookups a path leads to; `halts_resolvePath` says that the resolution ends
  when all of them do.
-/

namespace BenmoshOS

namespace Fat16

open Exec (Yields Halts)
open Fs

/-! ## Walks through a directory -/

section Walks

variable {κ : Type} {g : Geometry} {d : Disk} {kmalloc : Nat → Option (Nat → UInt8)}
  {callback : Visitor κ}

/-- A cluster number with which the walks go on. -/
def Live (c : Nat) : Prop := 2 ≤ c ∧ c < 0xFFF8

instance (c : Nat) : Decidable (Live c) := inferInstanceAs (Decidable (_ ∧ _))

/-- The links from `c` on lead out of the cluster numbers with which the walks go on. -/
def ChainEnds (g : Geometry) (d : Disk) (c : Nat) : Prop := ∃ k, ¬ Live ((fat g d)^[k] c)

/-- The visitor in the sectors of one cluster. -/
def visitAt (g : Geometry) (d : Disk) (callback : Visitor κ) (c : Nat) (context : κ) :
    Option Int × κ :=
  visitList callback (g.clusterLba c) (slots d (g.clusterLba c) 0 (16 * g.sectorsPerCluster)) 0
    context

/-- The context after `k` clusters of the chain from `D` on. -/
def contextAt (g : Geometry) (d : Disk) (callback : Visitor κ) (D : Nat) (context : κ) : Nat → κ
  | 0 => context
  | k + 1 => (visitAt g d callback ((fat g d)^[k] D) (contextAt g d callback D context k)).2

/-- The walk of `iterate_directory` ends: it is one through the root, or its chain does, or
the visitor stops in one of the clusters. -/
def WalkEnds (g : Geometry) (d : Disk) (callback : Visitor κ) (D : Nat) (context : κ) : Prop :=
  D = 0 ∨ ∃ k, ¬ Live ((fat g d)^[k] D) ∨
    (visitAt g d callback ((fat g d)^[k] D) (contextAt g d callback D context k)).1 ≠ none

theorem ChainEnds.walkEnds {D : Nat} (h : ChainEnds g d D) (callback : Visitor κ) (context : κ) :
    WalkEnds g d callback D context := by
  obtain ⟨k, hk⟩ := h
  exact Or.inr ⟨k, Or.inl hk⟩

/-- One round of the walk. -/
def walkStep (g : Geometry) (d : Disk) (callback : Visitor κ) (p : Nat × κ) :
    (Nat × κ) ⊕ (Int × κ) :=
  if Live p.1 then
    match visitAt g d callback p.1 p.2 with
    | (some status, context) => .inr (status, context)
    | (none, context) => .inl (fat g d p.1, context)
  else .inr (eok, p.2)

theorem visitCluster_clean (site : Site) (callback : Visitor κ) (p : Nat × κ) (n : Nat) :
    (visitCluster site callback p).run g kmalloc (clean d) n =
      .ret (walkStep g d callback p, clean d) := by
  have hvisit := visitSectors_clean ⟨g, n, kmalloc⟩ d site callback (g.clusterLba p.1)
    g.sectorsPerCluster 0 p.2
  rw [Nat.add_zero, Nat.mul_zero] at hvisit
  unfold Fs.run visitCluster walkStep visitAt
  simp only [Fs.bind_apply, Fs.geometry_apply, Exec.ret_bind]
  by_cases hlive : 2 ≤ p.1 ∧ p.1 < 0xFFF8
  · have hlive' : Live p.1 := hlive
    rw [if_pos hlive, if_pos hlive']
    simp only [Fs.bind_apply, hvisit, Exec.ret_bind]
    cases visitList callback (g.clusterLba p.1)
        (slots d (g.clusterLba p.1) 0 (16 * g.sectorsPerCluster)) 0 p.2 with
    | mk status context =>
        cases status with
        | some status => rfl
        | none => rfl
  · have hlive' : ¬ Live p.1 := hlive
    rw [if_neg hlive, if_neg hlive']
    rfl

theorem regular_visitCluster (site : Site) (callback : Visitor κ) (p : Nat × κ) :
    (visitCluster site callback p).Regular := by
  refine Total.regular (total_geometry.bind fun g => total_ite ?_ (total_pure _))
  refine (total_visitSectors _ _ _ _ _).bind fun r => ?_
  match r with
  | (some status, context) => exact total_pure _
  | (none, context) => exact (total_readFatEntry _ _).bind fun _ => total_pure _

theorem regular_iterateDirectory (site : Site) (D : Nat) (callback : Visitor κ) (context : κ) :
    (iterateDirectory site D callback context).Regular := by
  refine total_geometry.regular.bind fun g => regular_ite ?_ ?_
  · exact (total_visitSectors _ _ _ _ _).regular.bind fun _ => (total_pure _).regular
  · exact regular_loop (regular_visitCluster site callback) _

/-- The first `n` rounds of the walk: its result, if it has one then. -/
def walk (g : Geometry) (d : Disk) (callback : Visitor κ) : Nat → Nat × κ → Option (Int × κ)
  | 0, _ => none
  | n + 1, p =>
      match walkStep g d callback p with
      | .inl p => walk g d callback n p
      | .inr r => some r

/-- `iterate_directory` with walks of at most `n` rounds. -/
def iterate (g : Geometry) (d : Disk) (callback : Visitor κ) (n D : Nat) (context : κ) :
    Option (Int × κ) :=
  if D = 0 then
    let r := visitList callback g.rootDirSector
      (slots d g.rootDirSector 0 (16 * g.rootDirSizeSectors)) 0 context
    some (r.1.getD eok, r.2)
  else walk g d callback n (D, context)

/-- A result on the disk that was there before. -/
def unchanged {α : Type} (d : Disk) : Option α → Exec (α × Io)
  | some a => .ret (a, clean d)
  | none => .spin

theorem iterateDirectory_run (site : Site) (D : Nat) (callback : Visitor κ) (context : κ)
    (n : Nat) : (iterateDirectory site D callback context).run g kmalloc (clean d) n =
      unchanged d (iterate g d callback n D context) := by
  unfold Fs.run iterateDirectory iterate
  simp only [Fs.bind_apply, Fs.geometry_apply, Exec.ret_bind]
  by_cases hD : D = 0
  · rw [if_pos hD, if_pos hD]
    have hvisit := visitSectors_clean ⟨g, n, kmalloc⟩ d site callback g.rootDirSector
      g.rootDirSizeSectors 0 context
    rw [Nat.add_zero, Nat.mul_zero] at hvisit
    simp only [Fs.bind_apply, hvisit, Exec.ret_bind]
    rfl
  · rw [if_neg hD, if_neg hD]
    -- the rounds of the loop are those of the walk
    suffices hloop : ∀ k p, Exec.loop (Fs.round (visitCluster site callback) ⟨g, n, kmalloc⟩) k
        (p, clean d) = unchanged d (walk g d callback k p) from hloop n (D, context)
    intro k
    induction k with
    | zero => intro p; rfl
    | succ k ih =>
        intro p
        rw [Exec.loop, round_of_ret (visitCluster_clean site callback p n), walk]
        cases walkStep g d callback p with
        | inl p' => exact ih p'
        | inr r => rfl

/-- **Walks that end.** -/
theorem halts_iterateDirectory (site : Site) (D : Nat) (callback : Visitor κ) (context : κ) :
    Halts ((iterateDirectory site D callback context).run g kmalloc (clean d)) ↔
      WalkEnds g d callback D context := by
  by_cases hD : D = 0
  · refine iff_of_true ?_ (Or.inl hD)
    have hrun : (iterateDirectory site D callback context).run g kmalloc (clean d) 0 = _ :=
      iterateDirectory_run site D callback context 0
    rw [iterate, if_pos hD] at hrun
    exact ⟨_, 0, hrun⟩
  · have hrun : (iterateDirectory site D callback context).run g kmalloc (clean d) =
        (Fs.loop (visitCluster site callback) (D, context)).run g kmalloc (clean d) := by
      funext n
      unfold Fs.run iterateDirectory
      simp only [Fs.bind_apply, Fs.geometry_apply, Exec.ret_bind, if_neg hD]
    rw [hrun, WalkEnds, or_iff_right hD]
    have hyields : ∀ k, Yields (fun n => Fs.round (visitCluster site callback) ⟨g, n, kmalloc⟩
        (((fat g d)^[k] D, contextAt g d callback D context k), clean d)) _ :=
      fun k => yields_round ⟨0, visitCluster_clean site callback _ 0⟩
    have horbit := Exec.halts_loop_orbit
      (mono_round (regular_visitCluster site callback) g kmalloc)
      (p := fun k => Live ((fat g d)^[k] D) ∧
        (visitAt g d callback ((fat g d)^[k] D) (contextAt g d callback D context k)).1 = none)
      (fun k => (((fat g d)^[k] D, contextAt g d callback D context k), clean d)) ?_ ?_
    · rw [show (Fs.loop (visitCluster site callback) (D, context)).run g kmalloc (clean d) =
        fun n => Exec.loop (Fs.round (visitCluster site callback) ⟨g, n, kmalloc⟩) n
          ((D, context), clean d) from rfl]
      refine horbit.trans (exists_congr fun k => ?_)
      rw [not_and_or]
    · rintro k ⟨hlive, hnone⟩
      have hstep : walkStep g d callback ((fat g d)^[k] D, contextAt g d callback D context k) =
          .inl ((fat g d)^[k + 1] D, contextAt g d callback D context (k + 1)) := by
        rw [walkStep, if_pos hlive, Function.iterate_succ_apply', contextAt]
        generalize visitAt g d callback ((fat g d)^[k] D)
          (contextAt g d callback D context k) = r at hnone
        obtain ⟨status, context'⟩ := r
        obtain rfl : status = none := hnone
        rfl
      have hy := hyields k
      rwa [hstep] at hy
    · intro k hstop
      have hy := hyields k
      rw [walkStep] at hy
      by_cases hlive : Live ((fat g d)^[k] D)
      · rw [if_pos hlive] at hy
        generalize visitAt g d callback ((fat g d)^[k] D)
          (contextAt g d callback D context k) = r at hstop hy
        obtain ⟨status, context'⟩ := r
        cases status with
        | some status => exact ⟨_, hy⟩
        | none => exact absurd ⟨hlive, rfl⟩ hstop
      · rw [if_neg hlive] at hy
        exact ⟨_, hy⟩

/-- `iterate_directory` comes to an end with this status and this context. -/
def Iterates (g : Geometry) (d : Disk) (callback : Visitor κ) (D : Nat) (context : κ)
    (r : Int × κ) : Prop := ∃ n, iterate g d callback n D context = some r

theorem unchanged_eq_ret {α : Type} {o : Option α} {p : α × Io} :
    unchanged d o = .ret p ↔ o = some p.1 ∧ p.2 = clean d := by
  obtain ⟨a, io⟩ := p
  cases o with
  | none => simp [unchanged]
  | some b => simp [unchanged, eq_comm]

theorem yields_iterateDirectory (site : Site) {D : Nat} {context : κ} {p : (Int × κ) × Io} :
    Yields ((iterateDirectory site D callback context).run g kmalloc (clean d)) p ↔
      Iterates g d callback D context p.1 ∧ p.2 = clean d := by
  unfold Yields Iterates
  simp only [iterateDirectory_run, unchanged_eq_ret, exists_and_right]

theorem walkEnds_iff {D : Nat} {context : κ} :
    WalkEnds g d callback D context ↔ ∃ r, Iterates g d callback D context r := by
  have hhalts : Halts ((iterateDirectory .target D callback context).run g (fun _ => none)
      (clean d)) ↔ _ := halts_iterateDirectory .target D callback context
  rw [← hhalts]
  constructor
  · rintro ⟨p, hp⟩
    exact ⟨p.1, ((yields_iterateDirectory .target).1 hp).1⟩
  · rintro ⟨r, hr⟩
    exact ⟨(r, clean d), (yields_iterateDirectory .target).2 ⟨hr, rfl⟩⟩

end Walks

/-! ## Lookups and paths -/

section Paths

variable {g : Geometry} {d : Disk} {kmalloc : Nat → Option (Nat → UInt8)}

/-- The lookup of a name in a directory ends. -/
def LookupEnds (g : Geometry) (d : Disk) (D : Nat) (name : Name) : Prop :=
  WalkEnds g d (findFileCallback name) D FindCtx.zero

/-- What a lookup that ends finds; `none` is `-ENOENT`. -/
def Looks (g : Geometry) (d : Disk) (D : Nat) (name : Name) (found : Option Found) : Prop :=
  ∃ r, Iterates g d (findFileCallback name) D FindCtx.zero r ∧
    (if r.2.found then some r.2.out else none) = found

theorem regular_findInDir (site : Site) (D : Nat) (name : Name) : (findInDir site D name).Regular :=
  (regular_iterateDirectory _ _ _ _).bind fun _ => (total_pure _).regular

theorem yields_findInDir (site : Site) {D : Nat} {name : Name} {p : Option Found × Io} :
    Yields ((findInDir site D name).run g kmalloc (clean d)) p ↔
      Looks g d D name p.1 ∧ p.2 = clean d := by
  unfold findInDir
  rw [yields_bind (regular_iterateDirectory _ _ _ _) fun _ => (total_pure _).regular]
  constructor
  · rintro ⟨q, hq, n, hp⟩
    obtain ⟨hr, hio⟩ := (yields_iterateDirectory site).1 hq
    have hp' := Exec.ret.inj hp
    rw [← hp']
    exact ⟨⟨q.1, hr, rfl⟩, hio⟩
  · rintro ⟨⟨r, hr, hfound⟩, hio⟩
    refine ⟨(r, clean d), (yields_iterateDirectory site).2 ⟨hr, rfl⟩, 0, ?_⟩
    obtain ⟨found, io⟩ := p
    obtain rfl : io = clean d := hio
    obtain rfl := hfound
    rfl

theorem lookupEnds_iff {D : Nat} {name : Name} :
    LookupEnds g d D name ↔ ∃ found, Looks g d D name found := by
  rw [LookupEnds, walkEnds_iff]
  constructor
  · rintro ⟨r, hr⟩
    exact ⟨_, r, hr, rfl⟩
  · rintro ⟨_, r, hr, -⟩
    exact ⟨r, hr⟩

/-- A lookup has one result. -/
theorem Looks.unique {D : Nat} {name : Name} {found found' : Option Found}
    (h : Looks g d D name found) (h' : Looks g d D name found') : found = found' := by
  have hmono := (regular_findInDir .target D name).mono g (fun _ => none) (clean d)
  have hyields : ∀ found, Looks g d D name found →
      Yields ((findInDir .target D name).run g (fun _ => none) (clean d)) (found, clean d) :=
    fun found hfound => (yields_findInDir .target).2 ⟨hfound, rfl⟩
  exact (Prod.mk.inj ((hyields _ h).unique hmono (hyields _ h'))).1

/-- The first component of a path, as `fat16_resolve_path` cuts it off. -/
def component (path : List UInt8) : Name := (path.takeWhile (· ≠ slash)).take 255

/-- What follows the first component and its slashes. -/
def restOf (path : List UInt8) : List UInt8 :=
  (path.drop (component path).length).dropWhile (· = slash)

/-- In the resolution of `path` from directory `D` on, `name` is looked up in `D'`; `last` when
it is the last component. -/
inductive Asks (g : Geometry) (d : Disk) : Nat → List UInt8 → Nat → Name → Bool → Prop
  | inner {D : Nat} {path : List UInt8} (hpath : path ≠ []) (hdot : component path ≠ [dot])
      (hrest : restOf path ≠ []) : Asks g d D path D (component path) false
  | last {D : Nat} {path : List UInt8} (hpath : path ≠ []) (hdot : component path ≠ [dot])
      (hrest : restOf path = []) (hname : component path ≠ []) :
      Asks g d D path D (component path) true
  | dot {D D' : Nat} {path : List UInt8} {name : Name} {last : Bool} (hpath : path ≠ [])
      (hdot : component path = [dot]) (hasks : Asks g d D (restOf path) D' name last) :
      Asks g d D path D' name last
  | down {D D' : Nat} {path : List UInt8} {name : Name} {last : Bool} {found : Found}
      (hpath : path ≠ []) (hdot : component path ≠ [dot]) (hrest : restOf path ≠ [])
      (hfound : Looks g d D (component path) (some found))
      (hdir : found.entry.isDirectory = true)
      (hasks : Asks g d found.entry.startingCluster (restOf path) D' name last) :
      Asks g d D path D' name last

theorem regular_resolveFrom (n D : Nat) (path : List UInt8) : (resolveFrom n D path).Regular := by
  induction n generalizing D path with
  | zero => exact (total_pure _).regular
  | succ n ih =>
      refine regular_ite (total_pure _).regular ?_
      refine regular_ite (ih _ _) (regular_ite ?_ (regular_ite (total_pure _).regular ?_))
      · refine (regular_findInDir _ _ _).bind fun found => ?_
        cases found with
        | none => exact (total_pure _).regular
        | some found => exact regular_ite (ih _ _) (total_pure _).regular
      · exact (regular_findInDir _ _ _).bind fun _ => (total_pure _).regular

theorem restOf_length_lt {path : List UInt8} (h : path ≠ []) :
    (restOf path).length < path.length := by
  have hle : (restOf path).length ≤ (path.drop (component path).length).length :=
    (List.dropWhile_sublist _).length_le
  cases path with
  | nil => exact absurd rfl h
  | cons c path =>
      by_cases hc : c = slash
      · have hcomp : component (c :: path) = [] := by simp [component, hc]
        have hrest : restOf (c :: path) = path.dropWhile (· = slash) := by
          rw [restOf, hcomp, hc]
          simp
        rw [hrest, List.length_cons]
        exact Nat.lt_succ_of_le (List.dropWhile_sublist _).length_le
      · have hcomp : 0 < (component (c :: path)).length := by
          simp [component, hc]
        rw [List.length_drop] at hle
        simp only [List.length_cons] at hle ⊢
        omega

theorem resolveFrom_nil (n D : Nat) : resolveFrom n D [] = pure (.error (-einval)) := by
  cases n with
  | zero => rfl
  | succ n => rfl

theorem resolveFrom_dot {n D : Nat} {path : List UInt8} (hpath : path ≠ [])
    (hdot : component path = [dot]) :
    resolveFrom (n + 1) D path = resolveFrom n D (restOf path) := by
  rw [resolveFrom, if_neg hpath]
  exact if_pos hdot

theorem resolveFrom_inner {n D : Nat} {path : List UInt8} (hpath : path ≠ [])
    (hdot : component path ≠ [dot]) (hrest : restOf path ≠ []) :
    resolveFrom (n + 1) D path = (do
      match ← findInDir .component D (component path) with
      | none => pure (.error (-enoent))
      | some found =>
          if found.entry.isDirectory then resolveFrom n found.entry.startingCluster (restOf path)
          else pure (.error (-enotdir))) := by
  rw [resolveFrom, if_neg hpath]
  exact (if_neg hdot).trans (if_pos hrest)

theorem resolveFrom_last {n D : Nat} {path : List UInt8} (hpath : path ≠ [])
    (hdot : component path ≠ [dot]) (hrest : restOf path = []) :
    resolveFrom (n + 1) D path =
      if component path = [] then pure (.error (-einval))
      else (do
        let _ ← findInDir .lastComponent D (component path)
        pure (.ok (D, component path))) := by
  rw [resolveFrom, if_neg hpath]
  exact (if_neg hdot).trans (if_neg (not_not_intro hrest))

/-- **Resolution.**  It ends exactly when all the lookups do that it asks for. -/
theorem halts_resolveFrom {n : Nat} : ∀ {D : Nat} {path : List UInt8}, path.length ≤ n →
    (Halts ((resolveFrom n D path).run g kmalloc (clean d)) ↔
      ∀ D' name last, Asks g d D path D' name last → LookupEnds g d D' name) := by
  induction n with
  | zero =>
      intro D path hn
      obtain rfl : path = [] := List.eq_nil_of_length_eq_zero (by omega)
      refine iff_of_true ⟨_, 0, rfl⟩ ?_
      intro D' name last hasks
      cases hasks <;> contradiction
  | succ n ih =>
      intro D path hn
      by_cases hpath : path = []
      · subst hpath
        rw [resolveFrom_nil]
        refine iff_of_true ⟨_, 0, rfl⟩ ?_
        intro D' name last hasks
        cases hasks <;> contradiction
      · have hlen : (restOf path).length ≤ n := by
          have := restOf_length_lt hpath
          omega
        by_cases hdot : component path = [dot]
        · rw [resolveFrom_dot hpath hdot, ih hlen]
          constructor
          · intro h D' name last hasks
            cases hasks with
            | inner _ hnd _ => exact absurd hdot hnd
            | last _ hnd _ _ => exact absurd hdot hnd
            | dot _ _ hasks => exact h D' name last hasks
            | down _ hnd _ _ _ _ => exact absurd hdot hnd
          · exact fun h D' name last hasks => h D' name last (.dot hpath hdot hasks)
        · by_cases hrest : restOf path = []
          · rw [resolveFrom_last hpath hdot hrest]
            by_cases hname : component path = []
            · rw [if_pos hname]
              refine iff_of_true ⟨_, 0, rfl⟩ ?_
              intro D' name last hasks
              cases hasks <;> contradiction
            · rw [if_neg hname, halts_bind (regular_findInDir _ _ _) fun _ => (total_pure _).regular]
              constructor
              · rintro ⟨p, hp, -⟩ D' name last hasks
                have hends : LookupEnds g d D (component path) :=
                  lookupEnds_iff.2 ⟨p.1, ((yields_findInDir _).1 hp).1⟩
                cases hasks with
                | last => exact hends
                | inner => contradiction
                | dot => contradiction
                | down => contradiction
              · intro h
                obtain ⟨found, hfound⟩ := lookupEnds_iff.1 (h _ _ _ (.last hpath hdot hrest hname))
                exact ⟨(found, clean d), (yields_findInDir _).2 ⟨hfound, rfl⟩, _, 0, rfl⟩
          · rw [resolveFrom_inner hpath hdot hrest, halts_bind (regular_findInDir _ _ _) ?_]
            · constructor
              · rintro ⟨⟨found, io⟩, hp, hhalts⟩ D' name last hasks
                obtain ⟨hlooks, hio⟩ := (yields_findInDir _).1 hp
                obtain rfl : io = clean d := hio
                cases hasks with
                | inner => exact lookupEnds_iff.2 ⟨found, hlooks⟩
                | last => contradiction
                | dot => contradiction
                | down _ _ _ hfound hdir hasks =>
                    obtain rfl := hlooks.unique hfound
                    simp only [hdir, if_true] at hhalts
                    exact (ih hlen).1 hhalts D' name last hasks
              · intro h
                obtain ⟨found, hfound⟩ := lookupEnds_iff.1 (h _ _ _ (.inner hpath hdot hrest))
                refine ⟨(found, clean d), (yields_findInDir _).2 ⟨hfound, rfl⟩, ?_⟩
                cases found with
                | none => exact ⟨_, 0, rfl⟩
                | some found =>
                    by_cases hdir : found.entry.isDirectory = true
                    · simp only [hdir, if_true]
                      refine (ih hlen).2 fun D' name last hasks => h D' name last ?_
                      exact .down hpath hdot hrest hfound hdir hasks
                    · simp only [hdir, Bool.false_eq_true, if_false]
                      exact ⟨_, 0, rfl⟩
            · intro found
              cases found with
              | none => exact (total_pure _).regular
              | some found => exact regular_ite (regular_resolveFrom _ _ _) (total_pure _).regular

/-- What a resolution yields: the disk is as before, and success names the last lookup. -/
theorem yields_resolveFrom {n : Nat} : ∀ {D : Nat} {path : List UInt8}
    {p : Except Int (Nat × Name) × Io}, path.length ≤ n →
    Yields ((resolveFrom n D path).run g kmalloc (clean d)) p →
    p.2 = clean d ∧ ∀ D' name, Asks g d D path D' name true ↔ p.1 = .ok (D', name) := by
  induction n with
  | zero =>
      intro D path p hn hp
      obtain rfl : path = [] := List.eq_nil_of_length_eq_zero (by omega)
      obtain ⟨_, hp⟩ := hp
      rw [← Exec.ret.inj hp]
      refine ⟨rfl, fun D' name => iff_of_false ?_ (by simp)⟩
      intro hasks
      cases hasks <;> contradiction
  | succ n ih =>
      intro D path p hn hp
      by_cases hpath : path = []
      · subst hpath
        rw [resolveFrom_nil] at hp
        obtain ⟨_, hp⟩ := hp
        rw [← Exec.ret.inj hp]
        refine ⟨rfl, fun D' name => iff_of_false ?_ (by simp)⟩
        intro hasks
        cases hasks <;> contradiction
      · have hlen : (restOf path).length ≤ n := by
          have := restOf_length_lt hpath
          omega
        by_cases hdot : component path = [dot]
        · rw [resolveFrom_dot hpath hdot] at hp
          obtain ⟨hio, hlast⟩ := ih hlen hp
          refine ⟨hio, fun D' name => ?_⟩
          rw [← hlast]
          constructor
          · intro hasks
            cases hasks with
            | last => contradiction
            | dot _ _ hasks => exact hasks
            | down => contradiction
          · exact .dot hpath hdot
        · by_cases hrest : restOf path = []
          · rw [resolveFrom_last hpath hdot hrest] at hp
            by_cases hname : component path = []
            · rw [if_pos hname] at hp
              obtain ⟨_, hp⟩ := hp
              rw [← Exec.ret.inj hp]
              refine ⟨rfl, fun D' name => iff_of_false ?_ (by simp)⟩
              intro hasks
              cases hasks <;> contradiction
            · rw [if_neg hname, yields_bind (regular_findInDir _ _ _) fun _ => (total_pure _).regular]
                at hp
              obtain ⟨q, hq, _, hp⟩ := hp
              rw [← Exec.ret.inj hp]
              refine ⟨((yields_findInDir _).1 hq).2, fun D' name => ?_⟩
              simp only [Except.ok.injEq, Prod.mk.injEq]
              constructor
              · intro hasks
                cases hasks with
                | last => exact ⟨rfl, rfl⟩
                | dot => contradiction
                | down => contradiction
              · rintro ⟨rfl, rfl⟩
                exact .last hpath hdot hrest hname
          · rw [resolveFrom_inner hpath hdot hrest, yields_bind (regular_findInDir _ _ _) ?_] at hp
            · obtain ⟨⟨found, io⟩, hq, hp⟩ := hp
              obtain ⟨hlooks, hio⟩ := (yields_findInDir _).1 hq
              obtain rfl : io = clean d := hio
              -- only a directory that is found leads further down
              have hdown : ∀ {D' : Nat} {name : Name}, Asks g d D path D' name true ↔
                  ∃ f, found = some f ∧ f.entry.isDirectory = true ∧
                    Asks g d f.entry.startingCluster (restOf path) D' name true := by
                intro D' name
                constructor
                · intro hasks
                  cases hasks with
                  | last => contradiction
                  | dot => contradiction
                  | down _ _ _ hfound hdir hasks => exact ⟨_, hlooks.unique hfound, hdir, hasks⟩
                · rintro ⟨f, rfl, hdir, hasks⟩
                  exact .down hpath hdot hrest hlooks hdir hasks
              cases found with
              | none =>
                  obtain ⟨_, hp⟩ := hp
                  rw [← Exec.ret.inj hp]
                  refine ⟨rfl, fun D' name => hdown.trans ?_⟩
                  simp
              | some found =>
                  by_cases hdir : found.entry.isDirectory = true
                  · simp only [hdir, if_true] at hp
                    obtain ⟨hio, hlast⟩ := ih hlen hp
                    refine ⟨hio, fun D' name => hdown.trans ?_⟩
                    rw [← hlast]
                    simp [hdir]
                  · simp only [hdir, Bool.false_eq_true, if_false] at hp
                    obtain ⟨_, hp⟩ := hp
                    rw [← Exec.ret.inj hp]
                    refine ⟨rfl, fun D' name => hdown.trans ?_⟩
                    simp [hdir]
            · intro found
              cases found with
              | none => exact (total_pure _).regular
              | some found => exact regular_ite (regular_resolveFrom _ _ _) (total_pure _).regular

/-- The path behind its leading slash. -/
def pathTail (path : List UInt8) : List UInt8 :=
  if (cString path).head? = some slash then (cString path).tail else cString path

/-- All lookups in the resolution of a path end. -/
def PathEnds (g : Geometry) (d : Disk) (path : List UInt8) : Prop :=
  ∀ D name last, Asks g d 0 (pathTail path) D name last → LookupEnds g d D name

/-- The path leads to `name` in the directory `D`. -/
def LeadsTo (g : Geometry) (d : Disk) (path : List UInt8) (D : Nat) (name : Name) : Prop :=
  Asks g d 0 (pathTail path) D name true

theorem resolvePath_eq (path : List UInt8) :
    resolvePath path = resolveFrom (pathTail path).length 0 (pathTail path) := by
  unfold resolvePath pathTail
  by_cases h : cString path = []
  · simp [h, resolveFrom]
  · simp only [if_neg h]

theorem regular_resolvePath (path : List UInt8) : (resolvePath path).Regular := by
  rw [resolvePath_eq]
  exact regular_resolveFrom _ _ _

theorem halts_resolvePath (kmalloc : Nat → Option (Nat → UInt8)) (path : List UInt8) :
    Halts ((resolvePath path).run g kmalloc (clean d)) ↔ PathEnds g d path := by
  rw [resolvePath_eq]
  exact halts_resolveFrom (Nat.le_refl _)

theorem yields_resolvePath {path : List UInt8} {p : Except Int (Nat × Name) × Io}
    (h : Yields ((resolvePath path).run g kmalloc (clean d)) p) :
    p.2 = clean d ∧ ∀ D name, LeadsTo g d path D name ↔ p.1 = .ok (D, name) := by
  rw [resolvePath_eq] at h
  exact yields_resolveFrom (Nat.le_refl _) h

theorem error_of_pure {α : Type} {env : Env} {e e' : Int} {io io' : Io}
    (h : (pure (.error e') : Fs (Except Int α)) env io = .ret (.error e, io')) : e' = e :=
  Except.error.inj (Prod.mk.inj (Exec.ret.inj h)).1

/-- The codes of a resolution that fails are errors. -/
theorem resolveFrom_error {env : Env} {e : Int} : ∀ {n D : Nat} {path : List UInt8} {io io' : Io},
    resolveFrom n D path env io = .ret (.error e, io') → e < 0 := by
  intro n
  induction n with
  | zero =>
      intro D path io io' h
      obtain rfl := error_of_pure h
      decide
  | succ n ih =>
      intro D path io io' h
      rw [resolveFrom] at h
      split at h
      · obtain rfl := error_of_pure h
        decide
      · dsimp only at h
        split at h
        · exact ih h
        · split at h
          · obtain ⟨⟨found, io₁⟩, -, h⟩ := Exec.bind_eq_ret.1 h
            cases found with
            | none =>
                obtain rfl := error_of_pure h
                decide
            | some found =>
                dsimp only at h
                split at h
                · exact ih h
                · obtain rfl := error_of_pure h
                  decide
          · split at h
            · obtain rfl := error_of_pure h
              decide
            · obtain ⟨⟨found, io₁⟩, -, h⟩ := Exec.bind_eq_ret.1 h
              obtain ⟨he, -⟩ := Prod.mk.inj (Exec.ret.inj h)
              exact absurd he (by simp)

/-- The last component of a path is a name that fits the buffer of the driver. -/
theorem Asks.name {D D' : Nat} {path : List UInt8} {name : Name} {last : Bool}
    (h : Asks g d D path D' name last) : name.length ≤ 255 ∧ (last = true → name ≠ []) := by
  induction h with
  | inner => exact ⟨List.length_take_le _ _, fun h => absurd h (by simp)⟩
  | last _ _ _ hname => exact ⟨List.length_take_le _ _, fun _ => hname⟩
  | dot _ _ _ ih => exact ih
  | down _ _ _ _ _ _ ih => exact ih

end Paths

end Fat16

end BenmoshOS
