import BenmoshOS.Fat16.Loops
import BenmoshOS.Fat16.LongNames

/-!
# FAT16: directories of any shape

A directory is the root area or a chain of clusters, which need not be adjacent.
`iterate_directory` visits its slots in one order; a slot is named here by its place, the sector
and the index in it.

* `dirPlaces` — the places of a directory in the order of the iteration.
* `iterates_places` — `iterate_directory` runs the visitor over the places.
* `visitPlaces_sim` — what a visitor makes of a directory is what it makes of the list of its
  records, up to the numbers of the sectors.
* `looks_places` — lookups in directories of any shape.
-/

namespace BenmoshOS

namespace Fat16

open Exec (Yields Halts)
open Fs

variable {κ κ' : Type} {g : Geometry} {d : Disk} {D : Nat} {cs : List Nat}

/-- `cs` are the clusters of the directory `D`; the root has none. -/
def DirClusters (g : Geometry) (d : Disk) (D : Nat) (cs : List Nat) : Prop :=
  (D = 0 ∧ cs = []) ∨ (D ≠ 0 ∧ Chain (fat g d) (fun c => ¬ Live c) D cs)

/-- The sectors of the directory `D` with the clusters `cs`. -/
def dirLbas (g : Geometry) (D : Nat) (cs : List Nat) : List Nat :=
  if D = 0 then List.range' g.rootDirSector g.rootDirSizeSectors
  else cs.flatMap fun c => List.range' (g.clusterLba c) g.sectorsPerCluster

/-- The slots of sectors, in their order. -/
def placesOf (lbas : List Nat) : List (Nat × Nat) :=
  lbas.flatMap fun lba => (List.range 16).map fun i => (lba, i)

/-- The slots of a directory in the order in which `iterate_directory` visits them. -/
def dirPlaces (g : Geometry) (D : Nat) (cs : List Nat) : List (Nat × Nat) :=
  placesOf (dirLbas g D cs)

/-- The record at a place. -/
def recordOf (d : Disk) (p : Nat × Nat) : Record := recordAt (d p.1) p.2

/-- The records of a directory of any shape. -/
def dirRecords (g : Geometry) (d : Disk) (D : Nat) (cs : List Nat) : List Record :=
  (dirPlaces g D cs).map (recordOf d)

/-- A visitor run over the records at places. -/
def visitPlaces (callback : Visitor κ) (d : Disk) : List (Nat × Nat) → κ → Option Int × κ
  | [], context => (none, context)
  | p :: ps, context =>
      let result := callback p.1 p.2 (recordOf d p) context
      if result.1 < 0 then (some result.1, result.2)
      else if result.1 > 0 then (some eok, result.2)
      else visitPlaces callback d ps result.2

/-! ## Iteration -/

theorem visitPlaces_append (callback : Visitor κ) (ps qs : List (Nat × Nat)) (context : κ) :
    visitPlaces callback d (ps ++ qs) context =
      match visitPlaces callback d ps context with
      | (some status, context) => (some status, context)
      | (none, context) => visitPlaces callback d qs context := by
  induction ps generalizing context with
  | nil => rfl
  | cons p ps ih =>
      simp only [List.cons_append, visitPlaces]
      split
      · rfl
      · split
        · rfl
        · exact ih _

theorem placesOf_append (xs ys : List Nat) : placesOf (xs ++ ys) = placesOf xs ++ placesOf ys :=
  List.flatMap_append

/-- The places of adjacent sectors are the positions counted from the first one. -/
theorem placesOf_range' (base n : Nat) : placesOf (List.range' base n) =
    (List.range' 0 (16 * n)).map fun q => (base + q / 16, q % 16) := by
  induction n with
  | zero => rfl
  | succ n ih =>
      have hlast : placesOf [base + n] =
          (List.range' (16 * n) 16).map fun q => (base + q / 16, q % 16) := by
        unfold placesOf
        rw [List.flatMap_singleton, List.range'_eq_map_range, List.map_map]
        refine List.map_congr_left fun i hi => ?_
        have hi := List.mem_range.1 hi
        simp only [Function.comp_apply, Prod.mk.injEq]
        omega
      rw [List.range'_1_concat, placesOf_append, ih, hlast, ← List.map_append,
        show 16 * (n + 1) = 16 * n + 16 by omega, ← List.range'_append_1, Nat.zero_add]

theorem visitList_slots (callback : Visitor κ) (base n : Nat) : ∀ (p : Nat) (context : κ),
    visitList callback base (slots d base p n) p context =
      visitPlaces callback d ((List.range' p n).map fun q => (base + q / 16, q % 16)) context := by
  induction n with
  | zero => exact fun _ _ => rfl
  | succ n ih =>
      intro p context
      rw [slots_succ, List.range'_succ, List.map_cons, visitList, visitPlaces]
      simp only [ih]
      rfl

/-- The visitor in one cluster. -/
theorem visitAt_places (callback : Visitor κ) (c : Nat) (context : κ) :
    visitAt g d callback c context =
      visitPlaces callback d (placesOf (List.range' (g.clusterLba c) g.sectorsPerCluster))
        context := by
  rw [visitAt, visitList_slots, placesOf_range']

theorem walk_places (callback : Visitor κ) : ∀ {cs : List Nat} {v : Nat} (context : κ),
    Chain (fat g d) (fun c => ¬ Live c) v cs → walk g d callback (cs.length + 1) (v, context) =
      some ((visitPlaces callback d
          (placesOf (cs.flatMap fun c => List.range' (g.clusterLba c) g.sectorsPerCluster))
          context).1.getD eok,
        (visitPlaces callback d
          (placesOf (cs.flatMap fun c => List.range' (g.clusterLba c) g.sectorsPerCluster))
          context).2) := by
  intro cs
  induction cs with
  | nil =>
      intro v context hv
      have hstop : ¬ Live v := hv
      rw [walk, walkStep, if_neg hstop]
      rfl
  | cons c cs ih =>
      intro v context hv
      obtain ⟨rfl, hlive, hrest⟩ := hv
      rw [walk, walkStep, if_pos (not_not.1 hlive), visitAt_places, List.flatMap_cons,
        placesOf_append, visitPlaces_append]
      generalize visitPlaces callback d
        (placesOf (List.range' (g.clusterLba v) g.sectorsPerCluster)) context = r
      obtain ⟨status, context'⟩ := r
      cases status with
      | some status => rfl
      | none => exact ih context' hrest

theorem Iterates.unique {callback : Visitor κ} {context : κ} {r r' : Int × κ}
    (h : Iterates g d callback D context r) (h' : Iterates g d callback D context r') : r = r' := by
  have hmono := (regular_iterateDirectory .target D callback context).mono g (fun _ => none) (clean d)
  have hyields : ∀ r, Iterates g d callback D context r →
      Yields ((iterateDirectory .target D callback context).run g (fun _ => none) (clean d))
        (r, clean d) :=
    fun r hr => (yields_iterateDirectory .target).2 ⟨hr, rfl⟩
  exact (Prod.mk.inj ((hyields _ h).unique hmono (hyields _ h'))).1

/-- **Iteration.**  `iterate_directory` runs the visitor over the places of the directory. -/
theorem iterates_places (h : DirClusters g d D cs) {callback : Visitor κ} {context : κ}
    {r : Int × κ} : Iterates g d callback D context r ↔
      r = ((visitPlaces callback d (dirPlaces g D cs) context).1.getD eok,
        (visitPlaces callback d (dirPlaces g D cs) context).2) := by
  have hrun : Iterates g d callback D context
      ((visitPlaces callback d (dirPlaces g D cs) context).1.getD eok,
        (visitPlaces callback d (dirPlaces g D cs) context).2) := by
    unfold dirPlaces dirLbas
    rcases h with ⟨rfl, rfl⟩ | ⟨hD, hchain⟩
    · refine ⟨0, ?_⟩
      rw [iterate, if_pos rfl, if_pos rfl, placesOf_range', ← visitList_slots]
    · refine ⟨cs.length + 1, ?_⟩
      rw [iterate, if_neg hD, if_neg hD]
      exact walk_places callback context hchain
  exact ⟨fun hr => hr.unique hrun, fun hr => hr ▸ hrun⟩

/-! ## Places and positions -/

/-- A visitor at the places of a directory and one at the positions of its records. -/
theorem visitPlaces_sim {callback : Visitor κ} {callback' : Visitor κ'} {R : Nat → κ → κ' → Prop}
    {ps : List (Nat × Nat)}
    (hstep : ∀ j p context context', ps[j]? = some p → R j context context' →
      (callback p.1 p.2 (recordOf d p) context).1 =
        (callback' (0 + j / 16) (j % 16) (recordOf d p) context').1 ∧
      R (j + 1) (callback p.1 p.2 (recordOf d p) context).2
        (callback' (0 + j / 16) (j % 16) (recordOf d p) context').2) :
    ∀ (qs : List (Nat × Nat)) (j : Nat) (context : κ) (context' : κ'), ps.drop j = qs →
      R j context context' →
      (visitPlaces callback d qs context).1 =
        (visitList callback' 0 (qs.map (recordOf d)) j context').1 ∧
      ∃ k, R k (visitPlaces callback d qs context).2
        (visitList callback' 0 (qs.map (recordOf d)) j context').2 := by
  intro qs
  induction qs with
  | nil => exact fun j context context' _ hR => ⟨rfl, j, hR⟩
  | cons p qs ih =>
      intro j context context' hdrop hR
      have hget : ps[j]? = some p := by
        rw [← List.head?_drop, hdrop]
        rfl
      have hnext : ps.drop (j + 1) = qs := by
        rw [← List.tail_drop, hdrop]
        rfl
      obtain ⟨hstatus, hR'⟩ := hstep j p context context' hget hR
      rw [List.map_cons, visitPlaces, visitList]
      simp only [hstatus]
      split
      · exact ⟨rfl, j + 1, hR'⟩
      · split
        · exact ⟨rfl, j + 1, hR'⟩
        · exact ih (j + 1) _ _ hnext hR'

/-! ## Lookups -/

/-- The buffer of a lookup does not depend on the places. -/
theorem findFileCallback_sim (name : Name) {sec i sec' i' : Nat} (r : Record) {ctx ctx' : FindCtx}
    (h : ctx.lfnBuffer = ctx'.lfnBuffer) :
    (findFileCallback name sec i r ctx).1 = (findFileCallback name sec' i' r ctx').1 ∧
      (findFileCallback name sec i r ctx).2.lfnBuffer =
        (findFileCallback name sec' i' r ctx').2.lfnBuffer := by
  unfold findFileCallback
  rw [h]
  split_ifs
  all_goals exact ⟨rfl, by simp [h]⟩

/-- **Lookups.**  A name is found in a directory of any shape exactly when it is found in the list
of its records. -/
theorem looks_places (h : DirClusters g d D cs) {name : Name} {found : Option Found}
    (hfound : Looks g d D name found) :
    found.isSome = (scanResult name 0 0 FindCtx.zero (dirRecords g d D cs)).isSome := by
  obtain ⟨r, hiter, rfl⟩ := hfound
  obtain rfl := (iterates_places h).1 hiter
  obtain ⟨-, -, hbuf⟩ : _ ∧ ∃ _ : Nat,
      (visitPlaces (findFileCallback name) d (dirPlaces g D cs) FindCtx.zero).2.lfnBuffer =
        (visitList (findFileCallback name) 0 ((dirPlaces g D cs).map (recordOf d)) 0
          FindCtx.zero).2.lfnBuffer :=
    visitPlaces_sim (R := fun _ ctx ctx' => ctx.lfnBuffer = ctx'.lfnBuffer)
      (fun j p ctx ctx' _ hR => findFileCallback_sim name (recordOf d p) hR) (dirPlaces g D cs) 0
      FindCtx.zero FindCtx.zero rfl rfl
  have hscan := scan_finds name 0 (dirRecords g d D cs) 0 FindCtx.zero
  rw [← hscan]
  unfold dirRecords FindCtx.found
  rw [hbuf]
  split
  · rfl
  · rfl

theorem exists_looks (h : DirClusters g d D cs) (name : Name) : ∃ found, Looks g d D name found :=
  ⟨_, _, (iterates_places h).2 rfl, rfl⟩

end Fat16

end BenmoshOS
