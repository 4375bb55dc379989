import BenmoshOS.Fat16.Table

/-!
# FAT16: directories as lists of records

The root directory and a subdirectory of one cluster are consecutive sectors, so a
directory is a list of records.  While no access fails, `iterate_directory` folds the
visitor over that list, and the three visitors of the driver become list functions.

* `visits` — the real entries of a directory in the order in which a scan meets them,
  each with the long-name buffer that has been assembled in front of it.
* `lookup` — the first visit that a name matches; `findInDir_clean` says that this is
  what `fat16_find_in_dir` computes.
* `visits_insert`, `visits_middle`, `visits_tombstone` — what insertion, update and
  removal of an entry do to the visits.
-/

namespace BenmoshOS

namespace Fat16

/-! ## The records of a directory -/

/-- The first sector of a directory. -/
def dirBase (g : Geometry) (D : Nat) : Nat := if D = 0 then g.rootDirSector else g.clusterLba D

/-- The number of sectors of a directory: the root area or one cluster. -/
def dirSectors (g : Geometry) (D : Nat) : Nat :=
  if D = 0 then g.rootDirSizeSectors else g.sectorsPerCluster

/-- The record at position `p` of the directory that starts at sector `base`. -/
def slotAt (d : Disk) (base p : Nat) : Record := recordAt (d (base + p / 16)) (p % 16)

/-- The records `p, …, p + n - 1`. -/
def slots (d : Disk) (base p n : Nat) : List Record := (List.range' p n).map (slotAt d base)

/-- The records of a directory. -/
def records (g : Geometry) (d : Disk) (D : Nat) : List Record :=
  slots d (dirBase g D) 0 (16 * dirSectors g D)

/-- A directory `iterate_directory` walks in one piece: the root, or a single cluster. -/
def Flat (g : Geometry) (d : Disk) (D : Nat) : Prop :=
  D = 0 ∨ (2 ≤ D ∧ D < 0xFFF8 ∧ Eof (fat g d D))

variable {κ : Type} {env : Env} {g : Geometry} {d : Disk}

theorem slots_succ (d : Disk) (base p n : Nat) :
    slots d base p (n + 1) = slotAt d base p :: slots d base (p + 1) n := by
  simp [slots, List.range'_succ]

theorem slots_add (d : Disk) (base p m n : Nat) :
    slots d base p (m + n) = slots d base p m ++ slots d base (p + m) n := by
  rw [slots, slots, slots, ← List.map_append, List.range'_append_1]

@[simp] theorem length_slots (d : Disk) (base p n : Nat) : (slots d base p n).length = n := by
  simp [slots]

/-- A visitor run over a list of records, the first one at position `p`. -/
def visitList (callback : Visitor κ) (base : Nat) : List Record → Nat → κ → Option Int × κ
  | [], _, context => (none, context)
  | r :: rs, p, context =>
      let result := callback (base + p / 16) (p % 16) r context
      if result.1 < 0 then (some result.1, result.2)
      else if result.1 > 0 then (some eok, result.2)
      else visitList callback base rs (p + 1) result.2

theorem visitList_go {callback : Visitor κ} {base p : Nat} {r : Record} {context context' : κ}
    (h : callback (base + p / 16) (p % 16) r context = (0, context')) (rs : List Record) :
    visitList callback base (r :: rs) p context = visitList callback base rs (p + 1) context' := by
  simp [visitList, h]

theorem visitList_end {callback : Visitor κ} {base p : Nat} {r : Record} {context context' : κ}
    (h : callback (base + p / 16) (p % 16) r context = (1, context')) (rs : List Record) :
    visitList callback base (r :: rs) p context = (some eok, context') := by
  simp [visitList, h]

theorem visitList_append (callback : Visitor κ) (base : Nat) (xs ys : List Record) (p : Nat)
    (context : κ) :
    visitList callback base (xs ++ ys) p context =
      match visitList callback base xs p context with
      | (some status, context) => (some status, context)
      | (none, context) => visitList callback base ys (p + xs.length) context := by
  induction xs generalizing p context with
  | nil => rfl
  | cons r xs ih =>
      simp only [List.cons_append, visitList, List.length_cons]
      split
      · rfl
      · split
        · rfl
        · rw [ih, Nat.add_assoc p 1, Nat.add_comm 1]

theorem visitRecords_eq (callback : Visitor κ) (base k : Nat) : ∀ n i context, i + n ≤ 16 →
    visitRecords callback (base + k) (d (base + k)) n i context =
      visitList callback base (slots d base (16 * k + i) n) (16 * k + i) context := by
  intro n
  induction n with
  | zero => intro i context _; rfl
  | succ n ih =>
      intro i context hi
      have hdiv : (16 * k + i) / 16 = k := by omega
      have hmod : (16 * k + i) % 16 = i := by omega
      rw [slots_succ, visitList, visitRecords, slotAt, hdiv, hmod]
      simp only [ih (i + 1) _ (by omega), Nat.add_assoc]

theorem visitSectors_clean (env : Env) (d : Disk) (site : Site) (callback : Visitor κ)
    (base : Nat) : ∀ n k context, visitSectors site callback n (base + k) context env (clean d) =
      .ret (visitList callback base (slots d base (16 * k) (16 * n)) (16 * k) context, clean d) := by
  intro n
  induction n with
  | zero => intro k context; rfl
  | succ n ih =>
      intro k context
      have h16 : 16 * (n + 1) = 16 + 16 * n := by omega
      have hk : 16 * k + 16 = 16 * (k + 1) := by omega
      rw [h16, slots_add, visitList_append, length_slots, hk]
      simp only [visitSectors, Fs.bind_apply, ataReadSector_clean, Exec.ret_bind,
        visitRecords_eq callback base k 16 0 context (by omega), Nat.add_zero]
      generalize visitList callback base (slots d base (16 * k) 16) (16 * k) context = r
      obtain ⟨status, context'⟩ := r
      cases status with
      | some status => rfl
      | none => exact ih (k + 1) context'

/-- **Iteration.**  Without failures `iterate_directory` runs the visitor over the list
of the records. -/
theorem iterateDirectory_clean (site : Site) {D : Nat} (hD : Flat env.geom d D)
    (hfuel : 2 ≤ env.fuel) (callback : Visitor κ) (context : κ) :
    iterateDirectory site D callback context env (clean d) =
      .ret (((visitList callback (dirBase env.geom D) (records env.geom d D) 0 context).1.getD eok,
        (visitList callback (dirBase env.geom D) (records env.geom d D) 0 context).2), clean d) := by
  unfold records dirBase dirSectors iterateDirectory
  simp only [Fs.bind_apply, Fs.geometry_apply, Exec.ret_bind]
  rcases hD with rfl | ⟨h2, h8, heof⟩
  · simp only [if_true, Fs.bind_apply]
    have h := visitSectors_clean env d site callback env.geom.rootDirSector
      env.geom.rootDirSizeSectors 0 context
    rw [Nat.add_zero, Nat.mul_zero] at h
    rw [h]
    rfl
  · rw [if_neg (by omega), if_neg (by omega), if_neg (by omega)]
    have h := visitSectors_clean env d site callback (env.geom.clusterLba D)
      env.geom.sectorsPerCluster 0 context
    rw [Nat.add_zero, Nat.mul_zero] at h
    obtain ⟨fuel, hf⟩ : ∃ k, env.fuel = k + 2 := ⟨env.fuel - 2, by omega⟩
    -- the first round visits the cluster, the second one finds the end mark
    have hend : ¬ (2 ≤ fat env.geom d D ∧ fat env.geom d D < 0xFFF8) := by
      have : 0xFFF8 ≤ fat env.geom d D := heof
      omega
    unfold Fs.loop
    rw [hf]
    generalize hv : visitList callback (env.geom.clusterLba D)
      (slots d (env.geom.clusterLba D) 0 (16 * env.geom.sectorsPerCluster)) 0 context = r at h ⊢
    obtain ⟨status, context'⟩ := r
    cases status with
    | some status =>
        refine Exec.loop_leave ?_
        simp [Fs.round, visitCluster, h2, h8, h]
    | none =>
        have hround : Fs.round (visitCluster site callback) env ((D, context), clean d) =
            .ret (.inl ((fat env.geom d D, context'), clean d)) := by
          simp [Fs.round, visitCluster, h2, h8, h]
        rw [Exec.loop_again hround]
        refine Exec.loop_leave ?_
        simp [Fs.round, visitCluster, hend]

/-! ## Visits -/

/-- A slot an insertion may use. -/
def Record.IsFree (r : Record) : Prop := r 0 = 0x00 ∨ r 0 = 0xE5

instance (r : Record) : Decidable r.IsFree := inferInstanceAs (Decidable (_ ∨ _))

/-- A long-name fragment. -/
def Record.IsLfn (r : Record) : Prop := ¬ r.IsFree ∧ r.attributes = attrLfn

/-- A real entry: neither free nor a fragment nor a volume label. -/
structure Record.IsEntry (r : Record) : Prop where
  not_free : ¬ r.IsFree
  not_lfn : r.attributes ≠ attrLfn
  not_label : r.attributes ≠ attrVolumeId

/-- An entry a scan meets: its position, the long-name buffer at this point, and its
record. -/
structure Visit where
  pos : Nat
  buffer : Nat → UInt8
  entry : Record

/-- The buffer all of whose bytes are zero. -/
def emptyBuffer : Nat → UInt8 := fun _ => 0

/-- The long-name buffer after a record that does not end the scan. -/
def stepBuffer (b : Nat → UInt8) (r : Record) : Nat → UInt8 :=
  if r 0 = 0xE5 then emptyBuffer
  else if r.attributes = attrLfn then putFragment b r
  else if r.attributes = attrVolumeId then b
  else emptyBuffer

theorem stepBuffer_entry {r : Record} (h : r.IsEntry) (b : Nat → UInt8) :
    stepBuffer b r = emptyBuffer := by
  rw [stepBuffer, if_neg fun hf => h.not_free (Or.inr hf), if_neg h.not_lfn, if_neg h.not_label]

/-- The entries a scan meets from position `p` on with buffer `b`. -/
def visits : Nat → (Nat → UInt8) → List Record → List Visit
  | _, _, [] => []
  | p, b, r :: rs =>
      if r 0 = 0x00 then []
      else if r 0 = 0xE5 ∨ r.attributes = attrLfn ∨ r.attributes = attrVolumeId then
        visits (p + 1) (stepBuffer b r) rs
      else ⟨p, b, r⟩ :: visits (p + 1) (stepBuffer b r) rs

section Scan

variable {p : Nat} {b : Nat → UInt8} {r : Record} {rs : List Record}

theorem visits_end (h : r 0 = 0x00) : visits p b (r :: rs) = [] := if_pos h

theorem visits_skip (h₀ : r 0 ≠ 0x00) (h : ¬ r.IsEntry) :
    visits p b (r :: rs) = visits (p + 1) (stepBuffer b r) rs := by
  rw [visits, if_neg h₀, if_pos]
  by_contra hc
  simp only [not_or] at hc
  exact h ⟨fun hf => hf.elim h₀ hc.1, hc.2.1, hc.2.2⟩

theorem visits_entry (h : r.IsEntry) :
    visits p b (r :: rs) = ⟨p, b, r⟩ :: visits (p + 1) emptyBuffer rs := by
  have h₀ : r 0 ≠ 0x00 := fun hf => h.not_free (Or.inl hf)
  have h₅ : r 0 ≠ 0xE5 := fun hf => h.not_free (Or.inr hf)
  rw [visits, if_neg h₀, if_neg (by simp [h₅, h.not_lfn, h.not_label]), stepBuffer_entry h]

end Scan

/-- The comparison of `find_file_callback`: the name matches the assembled long name or
the short name of the entry. -/
def Visit.Matches (name : Name) (v : Visit) : Prop :=
  (v.buffer 0 ≠ 0 ∧ matchFrom v.buffer 0 name) ∨ matchSfn v.entry name

instance (name : Name) (v : Visit) : Decidable (v.Matches name) :=
  inferInstanceAs (Decidable (_ ∨ _))

/-- The visits of a directory. -/
def entries (g : Geometry) (d : Disk) (D : Nat) : List Visit :=
  visits 0 emptyBuffer (records g d D)

/-- What a lookup finds. -/
def lookup (g : Geometry) (d : Disk) (D : Nat) (name : Name) : Option Visit :=
  (entries g d D).find? (·.Matches name)

/-- The fragment does not reach the flag behind the buffer with a nonzero byte. -/
def FlagFree (r : Record) : Prop :=
  r.attributes = attrLfn → (r 0 &&& 0x1F).toNat = 20 →
    ∀ j, 9 ≤ j → j < 13 → decodeUnit (u16 r (charOffset j)) = 0

theorem putFragment_eq_zero {b : Nat → UInt8} {r : Record} (hb : ∀ k, 256 ≤ k → b k = 0)
    (hlfn : r.attributes = attrLfn) (hr : FlagFree r) (k : Nat) (hk : 256 ≤ k) :
    putFragment b r k = 0 := by
  unfold putFragment
  split
  · rename_i hseq
    by_cases hin : ((r 0 &&& 0x1F).toNat - 1) * 13 + 13 ≤ k
    · rw [patch_of_not_mem (by simp only [List.length_map, List.length_range]; omega), hb k hk]
    · -- only the fragment with index 19 reaches behind the buffer
      have h20 : (r 0 &&& 0x1F).toNat = 20 := by omega
      obtain ⟨j, rfl⟩ : ∃ j, k = (20 - 1) * 13 + j := ⟨k - 247, by omega⟩
      rw [h20, patch_add (by simp only [List.length_map, List.length_range]; omega)]
      simp only [List.getD_eq_getElem?_getD, List.getElem?_map, List.getElem?_range
        (show j < 13 by omega), Option.map_some, Option.getD_some]
      exact hr hlfn h20 j (by omega) (by omega)
  · exact hb k hk

theorem stepBuffer_eq_zero {b : Nat → UInt8} {r : Record} (hb : ∀ k, 256 ≤ k → b k = 0)
    (hr : FlagFree r) (k : Nat) (hk : 256 ≤ k) : stepBuffer b r k = 0 := by
  unfold stepBuffer
  split_ifs with h₁ h₂
  · rfl
  · exact putFragment_eq_zero hb h₂ hr k hk
  · exact hb k hk
  · rfl

theorem clearBuffer_eq {b : Nat → UInt8} (hb : ∀ k, 256 ≤ k → b k = 0) :
    clearBuffer b = emptyBuffer := by
  funext k
  unfold clearBuffer emptyBuffer
  split
  · rfl
  · exact hb k (by omega)

/-- The place of a visit on disk. -/
def Visit.found (base : Nat) (v : Visit) : Found := ⟨v.entry, base + v.pos / 16, v.pos % 16⟩

theorem found_setU32 (out : Found) (b : Nat → UInt8) :
    FindCtx.found ⟨out, setU32 b 256 1⟩ = true := by
  unfold FindCtx.found
  simp only [u32_setU32_self]
  rfl

theorem found_of_zero {out : Found} {b : Nat → UInt8} (hb : ∀ k, 256 ≤ k → b k = 0) :
    FindCtx.found ⟨out, b⟩ = false := by
  simp [FindCtx.found, u32, u16, hb 256, hb 257, hb 258, hb 259]

section Callback

variable {name : Name} {sec i : Nat} {r : Record} {ctx : FindCtx}

theorem findFileCallback_end (h : r 0 = 0x00) :
    findFileCallback name sec i r ctx = (1, ctx) := if_pos h

theorem findFileCallback_match (h : r.IsEntry) {p : Nat}
    (hm : Visit.Matches name ⟨p, ctx.lfnBuffer, r⟩) :
    findFileCallback name sec i r ctx = (1, ⟨⟨r, sec, i⟩, setU32 ctx.lfnBuffer 256 1⟩) := by
  have hm' : (ctx.lfnBuffer 0 ≠ 0 ∧ matchFrom ctx.lfnBuffer 0 name = true) ∨
      matchSfn r name = true := hm
  rw [findFileCallback, if_neg fun hf => h.not_free (Or.inl hf),
    if_neg fun hf => h.not_free (Or.inr hf), if_neg h.not_lfn, if_pos h.not_label, if_pos hm']

/-- A record at which the lookup goes on. -/
theorem findFileCallback_go (hb : ∀ k, 256 ≤ k → ctx.lfnBuffer k = 0) (h₀ : r 0 ≠ 0x00)
    (h : r.IsEntry → ¬ Visit.Matches name ⟨0, ctx.lfnBuffer, r⟩) :
    findFileCallback name sec i r ctx = (0, ⟨ctx.out, stepBuffer ctx.lfnBuffer r⟩) := by
  unfold findFileCallback stepBuffer
  rw [if_neg h₀, clearBuffer_eq hb]
  by_cases h₅ : r 0 = 0xE5
  · rw [if_pos h₅, if_pos h₅]
  · rw [if_neg h₅, if_neg h₅]
    by_cases hlfn : r.attributes = attrLfn
    · rw [if_pos hlfn, if_pos hlfn]
    · rw [if_neg hlfn, if_neg hlfn]
      by_cases hlabel : r.attributes = attrVolumeId
      · rw [if_neg (by simpa using hlabel), if_pos hlabel]
      · rw [if_pos hlabel, if_neg hlabel]
        exact if_neg (h ⟨fun hf => hf.elim h₀ h₅, hlfn, hlabel⟩)

end Callback

/-- The lookup visitor finds the first visit that matches. -/
theorem visitList_findFileCallback (name : Name) (base : Nat) (rs : List Record)
    (hrs : ∀ r ∈ rs, FlagFree r) : ∀ (p : Nat) (ctx : FindCtx),
      (∀ k, 256 ≤ k → ctx.lfnBuffer k = 0) →
      (if (visitList (findFileCallback name) base rs p ctx).2.found then
          some (visitList (findFileCallback name) base rs p ctx).2.out else none) =
        ((visits p ctx.lfnBuffer rs).find? (·.Matches name)).map (Visit.found base) := by
  induction rs with
  | nil =>
      intro p ctx hb
      simp [visitList, visits, found_of_zero hb]
  | cons r rs ih =>
      intro p ctx hb
      have ih' := ih fun r' hr' => hrs r' (List.mem_cons_of_mem _ hr')
      have hnext := stepBuffer_eq_zero hb (hrs r (List.mem_cons_self ..))
      by_cases h₀ : r 0 = 0x00
      · rw [visitList_end (findFileCallback_end h₀), visits_end h₀]
        simp [found_of_zero hb]
      · by_cases he : r.IsEntry
        · rw [visits_entry he, List.find?_cons]
          by_cases hm : Visit.Matches name ⟨p, ctx.lfnBuffer, r⟩
          · rw [visitList_end (findFileCallback_match he hm), decide_eq_true hm]
            simp [found_setU32, Visit.found]
          · rw [visitList_go (findFileCallback_go hb h₀ fun _ => hm), decide_eq_false hm,
              ih' (p + 1) _ hnext, stepBuffer_entry he]
        · rw [visitList_go (findFileCallback_go hb h₀ fun h => absurd h he), visits_skip h₀ he,
            ih' (p + 1) _ hnext]

/-- **Lookup.**  On a flat directory `fat16_find_in_dir` finds the first visit that the
name matches. -/
theorem findInDir_clean (site : Site) {D : Nat} (hD : Flat env.geom d D) (hfuel : 2 ≤ env.fuel)
    (hflag : ∀ r ∈ records env.geom d D, FlagFree r) (name : Name) :
    findInDir site D name env (clean d) =
      .ret ((lookup env.geom d D name).map (Visit.found (dirBase env.geom D)), clean d) := by
  unfold findInDir
  simp only [Fs.bind_apply, iterateDirectory_clean site hD hfuel, Exec.ret_bind, Fs.pure_apply]
  rw [visitList_findFileCallback name _ _ hflag 0 FindCtx.zero fun _ _ => rfl]
  rfl

/-! ## Changes of the record list -/

/-- The long-name buffer after a list of records. -/
def bufferAfter (b : Nat → UInt8) (rs : List Record) : Nat → UInt8 := rs.foldl stepBuffer b

/-- Behind the first record that ends the scan there are only such records. -/
def ZeroTail (rs : List Record) : Prop := rs.Pairwise fun r r' => r 0 = 0x00 → r' 0 = 0x00

section Lists

variable {p : Nat} {b : Nat → UInt8} {xs ys : List Record}

theorem visits_append (h : ∀ r ∈ xs, r 0 ≠ 0x00) :
    visits p b (xs ++ ys) = visits p b xs ++ visits (p + xs.length) (bufferAfter b xs) ys := by
  induction xs generalizing p b with
  | nil => rfl
  | cons r xs ih =>
      have h₀ := h r (List.mem_cons_self ..)
      have ih' := ih (p := p + 1) (b := stepBuffer b r)
        fun r' hr' => h r' (List.mem_cons_of_mem _ hr')
      rw [Nat.add_assoc p 1, Nat.add_comm 1] at ih'
      by_cases he : r.IsEntry
      · rw [stepBuffer_entry he] at ih'
        rw [List.cons_append, visits_entry he, visits_entry he, ih']
        simp [bufferAfter, stepBuffer_entry he]
      · rw [List.cons_append, visits_skip h₀ he, visits_skip h₀ he, ih']
        rfl

/-- Nothing is visited behind the end of the scan. -/
theorem visits_zero (h : ∀ r ∈ ys, r 0 = 0x00) : visits p b ys = [] := by
  cases ys with
  | nil => rfl
  | cons r ys => exact visits_end (h r (List.mem_cons_self ..))

/-- Free slots: the scan ends in them, or goes on behind them with an empty buffer. -/
theorem visits_free (hxs : xs ≠ []) (hfree : ∀ r ∈ xs, r.IsFree) (hz : ZeroTail (xs ++ ys)) :
    visits p b (xs ++ ys) = visits (p + xs.length) emptyBuffer ys := by
  induction xs generalizing p b with
  | nil => exact absurd rfl hxs
  | cons r xs ih =>
      rw [List.cons_append] at hz ⊢
      rcases List.pairwise_cons.1 hz with ⟨hr, hz'⟩
      by_cases h₀ : r 0 = 0x00
      · rw [visits_end h₀, visits_zero fun r' hr' => hr r' (List.mem_append_right _ hr') h₀]
      · have h₅ : r 0 = 0xE5 := (hfree r (List.mem_cons_self ..)).resolve_left h₀
        have hstep : stepBuffer b r = emptyBuffer := if_pos h₅
        rw [visits_skip h₀ fun he => he.not_free (Or.inr h₅), hstep, List.length_cons]
        cases xs with
        | nil => rfl
        | cons r' xs =>
            rw [ih (by simp) (fun r' hr' => hfree r' (List.mem_cons_of_mem _ hr')) hz',
              Nat.add_assoc, Nat.add_comm 1]

/-- A visit splits the list of records at its position. -/
theorem visits_split {v : Visit} {rs : List Record} (h : v ∈ visits p b rs) :
    ∃ xs ys, rs = xs ++ v.entry :: ys ∧ v.pos = p + xs.length ∧ (∀ r ∈ xs, r 0 ≠ 0x00) ∧
      v.entry.IsEntry ∧ v.buffer = bufferAfter b xs := by
  induction rs generalizing p b with
  | nil => simp [visits] at h
  | cons r rs ih =>
      by_cases h₀ : r 0 = 0x00
      · simp [visits_end h₀] at h
      · by_cases he : r.IsEntry
        · rw [visits_entry he] at h
          rcases List.mem_cons.1 h with rfl | h
          · exact ⟨[], rs, rfl, rfl, by simp, he, rfl⟩
          · obtain ⟨xs, ys, rfl, hpos, hxs, hv, hbuf⟩ := ih h
            refine ⟨r :: xs, ys, rfl, by rw [hpos, List.length_cons]; omega, ?_, hv, ?_⟩
            · exact List.forall_mem_cons.2 ⟨h₀, hxs⟩
            · rw [hbuf, bufferAfter, bufferAfter, List.foldl_cons, stepBuffer_entry he]
        · rw [visits_skip h₀ he] at h
          obtain ⟨xs, ys, rfl, hpos, hxs, hv, hbuf⟩ := ih h
          exact ⟨r :: xs, ys, rfl, by rw [hpos, List.length_cons]; omega,
            List.forall_mem_cons.2 ⟨h₀, hxs⟩, hv, hbuf⟩

/-- The visits of a list with an entry behind `xs`. -/
theorem visits_middle (hxs : ∀ r ∈ xs, r 0 ≠ 0x00) {r : Record} (hr : r.IsEntry) :
    visits p b (xs ++ r :: ys) = visits p b xs ++ ⟨p + xs.length, bufferAfter b xs, r⟩ ::
      visits (p + xs.length + 1) emptyBuffer ys := by
  rw [visits_append hxs, visits_entry hr]

/-- The visits of a list with a tombstone behind `xs`. -/
theorem visits_tombstone (hxs : ∀ r ∈ xs, r 0 ≠ 0x00) {r : Record} (hr : r 0 = 0xE5) :
    visits p b (xs ++ r :: ys) = visits p b xs ++ visits (p + xs.length + 1) emptyBuffer ys := by
  have hstep : stepBuffer (bufferAfter b xs) r = emptyBuffer := if_pos hr
  rw [visits_append hxs, visits_skip (by rw [hr]; decide) fun he => he.not_free (Or.inr hr), hstep]

/-- Fragments only fill the buffer. -/
theorem visits_lfns {ls : List Record} (hls : ∀ r ∈ ls, r.IsLfn) :
    visits p b (ls ++ ys) = visits (p + ls.length) (bufferAfter b ls) ys := by
  have h₀ : ∀ r ∈ ls, r 0 ≠ 0x00 := fun r hr hz => (hls r hr).1 (Or.inl hz)
  rw [visits_append h₀]
  suffices visits p b ls = [] by rw [this, List.nil_append]
  clear h₀
  induction ls generalizing p b with
  | nil => rfl
  | cons r ls ih =>
      have hr := hls r (List.mem_cons_self ..)
      rw [visits_skip (fun hz => hr.1 (Or.inl hz)) fun he => he.not_lfn hr.2,
        ih fun r' hr' => hls r' (List.mem_cons_of_mem _ hr')]

/-- **Insertion.**  Free slots that are replaced by fragments and an entry add exactly
one visit. -/
theorem visits_insert {as ws bs ls : List Record} {e : Record} (has : ∀ r ∈ as, r 0 ≠ 0x00)
    (hws : ∀ r ∈ ws, r.IsFree) (hlen : ws.length = ls.length + 1)
    (hls : ∀ r ∈ ls, r.IsLfn) (he : e.IsEntry) (hz : ZeroTail (as ++ (ws ++ bs))) :
    visits p b (as ++ (ws ++ bs)) = visits p b as ++
        visits (p + as.length + ws.length) emptyBuffer bs ∧
      visits p b (as ++ (ls ++ [e] ++ bs)) = visits p b as ++
        ⟨p + as.length + ls.length, bufferAfter (bufferAfter b as) ls, e⟩ ::
          visits (p + as.length + ws.length) emptyBuffer bs := by
  have hws' : ws ≠ [] := by
    rintro rfl
    simp at hlen
  constructor
  · rw [visits_append has, visits_free hws' hws (List.pairwise_append.1 hz).2.1]
  · rw [visits_append has, List.append_assoc, visits_lfns hls, List.singleton_append,
      visits_entry he, hlen, Nat.add_assoc (p + as.length)]

end Lists

end Fat16

end BenmoshOS
