import BenmoshOS.Fat16.Reclaim

/-!
# FAT16: the parts of `fat16_write_file`

`fat16_write_file` resolves its path, looks the file up and makes it if it is new, prepares its
clusters, runs the write loop and rewrites the entry.

* `WalksTo` — where the append walk ends.
* `writeTail`, `writeEntry_write` — the parts behind the lookup.
* `onEntry_yields`, `Succeeds.writeNew` — the parts in front of it.
-/

namespace BenmoshOS

namespace Fat16

open Exec (Yields Halts)
open Fs

variable {g : Geometry} {d d' : Disk} {kmalloc : Nat → Option (Nat → UInt8)}

/-! ## The append walk -/

/-- The append walk of `fat16_write_file` goes from `p` to `q`; both are `curr_cluster` and
`prev_cluster`. -/
inductive WalksTo (g : Geometry) (d : Disk) : Nat × Nat → Nat × Nat → Prop
  | last {p : Nat × Nat} (hlive : Live p.1) (heof : 0xFFF8 ≤ fat g d p.1) :
      WalksTo g d p (p.1, p.1)
  | out {p : Nat × Nat} (hout : ¬ Live p.1) : WalksTo g d p p
  | next {p q : Nat × Nat} (hlive : Live p.1) (hgo : fat g d p.1 < 0xFFF8)
      (h : WalksTo g d (fat g d p.1, p.1) q) : WalksTo g d p q

theorem WalksTo.unique {p q q' : Nat × Nat} (h : WalksTo g d p q) (h' : WalksTo g d p q') :
    q = q' := by
  induction h with
  | last hlive heof =>
      cases h' with
      | last => rfl
      | out hout => exact absurd hlive hout
      | next _ hgo _ => omega
  | out hout =>
      cases h' with
      | last hlive _ => exact absurd hlive hout
      | out => rfl
      | next hlive _ _ => exact absurd hlive hout
  | next hlive hgo _ ih =>
      cases h' with
      | last _ heof => omega
      | out hout => exact absurd hlive hout
      | next _ _ h' => exact ih h'

theorem walksTo_of_yields {p : Nat × Nat} {r : (Nat × Nat) × Io}
    (h : Yields ((Fs.loop walkRound p).run g kmalloc (clean d)) r) :
    r.2 = clean d ∧ WalksTo g d p r.1 := by
  obtain ⟨n, h⟩ := h
  suffices hrounds : ∀ k p, Exec.loop (round walkRound ⟨g, n, kmalloc⟩) k (p, clean d) = .ret r →
      r.2 = clean d ∧ WalksTo g d p r.1 from hrounds n p h
  intro k
  induction k with
  | zero => exact fun p h => absurd h (by simp [Exec.loop])
  | succ k ih =>
      intro p h
      rw [Exec.loop, round_of_ret (walkRound_clean p n)] at h
      by_cases hlive : Live p.1
      · by_cases heof : fat g d p.1 ≥ 0xFFF8
        · simp only [if_pos hlive, if_pos heof, Sum.map_inr] at h
          rw [← Exec.ret.inj h]
          exact ⟨rfl, .last hlive heof⟩
        · simp only [if_pos hlive, if_neg heof, Sum.map_inl] at h
          obtain ⟨hio, hwalks⟩ := ih _ h
          exact ⟨hio, .next hlive (by omega) hwalks⟩
      · simp only [if_neg hlive, Sum.map_inr] at h
        rw [← Exec.ret.inj h]
        exact ⟨rfl, .out hlive⟩

/-! ## The entry of a file -/

section Entry

variable {data : List UInt8} {append : Bool} {found : Found} {start : Nat}

/-- `fat16_write_file` behind the write loop. -/
def finishWrite (found : Found) (data : List UInt8) (append : Bool) : Except Int Nat → Fs Int
  | .error res => pure res
  | .ok firstCluster => updateDir found (found.entry.withChain firstCluster
      (if append then wrap32 (found.entry.fileSize + data.length) else data.length))

/-- `fat16_write_file` behind the preparation of its clusters. -/
def writeTail (found : Found) (data : List UInt8) (append : Bool) (st : WriteState) : Fs Int :=
  Fs.loop (writeRound data append found.entry.fileSize) st >>= finishWrite found data append

theorem writeEntry_truncate (hdir : found.entry.isDirectory = false) :
    writeEntry found [] false = (Fs.when (2 ≤ found.entry.startingCluster)
        (freeChain found.entry.startingCluster) >>= fun _ =>
      updateDir found (found.entry.withChain 0 0)) :=
  (if_neg (by simp [hdir])).trans (if_pos ⟨rfl, rfl⟩)

theorem writeEntry_write (hdir : found.entry.isDirectory = false)
    (hdata : ¬ (append = false ∧ data.length = 0)) :
    writeEntry found data append =
      (prepareWrite append found.entry.startingCluster >>= writeTail found data append) :=
  (if_neg (by simp [hdir])).trans (if_neg hdata)

theorem regular_finishWrite (found : Found) (data : List UInt8) (append : Bool)
    (r : Except Int Nat) : (finishWrite found data append r).Regular := by
  cases r with
  | error res => exact (total_pure _).regular
  | ok first => exact (total_updateDir _ _).regular

theorem roundOffset_first (fileSize first curr prev : Nat) :
    roundOffset g true fileSize ⟨first, curr, prev, 0⟩ = fileSize % g.clusterBytes := by
  unfold roundOffset
  by_cases hsize : 0 < fileSize
  · exact if_pos ⟨rfl, hsize, rfl⟩
  · obtain rfl : fileSize = 0 := by omega
    rw [if_neg fun h => hsize h.2.1, Nat.zero_mod]

end Entry

/-! ## The path and the lookup -/

section Path

variable {path : List UInt8} {D : Nat} {name : Name} {data : List UInt8} {append : Bool}

/-- A path that leads to a name is resolved, when the lookup of the name ends. -/
theorem Asks.yields {D₀ : Nat} {tail : List UInt8} {last : Bool}
    (h : Asks g d D₀ tail D name last) (hlast : last = true) {o : Option Found}
    (hlooks : Looks g d D name o) : ∀ {n : Nat}, tail.length ≤ n →
    Yields ((resolveFrom n D₀ tail).run g kmalloc (clean d)) (.ok (D, name), clean d) := by
  induction h with
  | inner => exact absurd hlast (by simp)
  | @last D₀ tail hpath hdot hrest hname =>
      intro n hn
      have hpos := List.length_pos_of_ne_nil hpath
      obtain ⟨m, rfl⟩ : ∃ m, n = m + 1 := ⟨n - 1, by omega⟩
      rw [resolveFrom_last hpath hdot hrest, if_neg hname,
        yields_bind (regular_findInDir _ _ _) fun _ => (total_pure _).regular]
      exact ⟨(o, clean d), (yields_findInDir _).2 ⟨hlooks, rfl⟩, 0, rfl⟩
  | @dot D₀ D tail name last hpath hdot _ ih =>
      intro n hn
      have hlt := restOf_length_lt hpath
      obtain ⟨m, rfl⟩ : ∃ m, n = m + 1 := ⟨n - 1, by omega⟩
      rw [resolveFrom_dot hpath hdot]
      exact ih hlast hlooks (by omega)
  | @down D₀ D tail name last f hpath hdot hrest hfound hdir _ ih =>
      intro n hn
      have hlt := restOf_length_lt hpath
      obtain ⟨m, rfl⟩ : ∃ m, n = m + 1 := ⟨n - 1, by omega⟩
      rw [resolveFrom_inner hpath hdot hrest, yields_bind (regular_findInDir _ _ _) ?_]
      · refine ⟨(some f, clean d), (yields_findInDir _).2 ⟨hfound, rfl⟩, ?_⟩
        simp only [hdir, if_true]
        exact ih hlast hlooks (by omega)
      · intro found
        cases found with
        | none => exact (total_pure _).regular
        | some found => exact regular_ite (regular_resolveFrom _ _ _) (total_pure _).regular

/-- A call whose path leads to a name does what it does with it. -/
theorem onEntry_yields {β : Type} {refuse : Int → β} {site : Site}
    {f : Nat → Name → Option Found → Fs β} (hf : ∀ D name r, (f D name r).Regular)
    (hlead : LeadsTo g d path D name) {found : Option Found} (hlooks : Looks g d D name found)
    {p : β × Io} (hp : Yields ((f D name found).run g kmalloc (clean d)) p) :
    Yields ((onEntry path refuse site f).run g kmalloc (clean d)) p := by
  have hresolve : Yields ((resolvePath path).run g kmalloc (clean d)) (.ok (D, name), clean d) := by
    rw [resolvePath_eq]
    exact Asks.yields hlead rfl hlooks (Nat.le_refl _)
  refine (yields_bind (regular_resolvePath path) (regular_afterPath hf)).2 ⟨_, hresolve, ?_⟩
  exact (yields_bind (regular_findInDir _ _ _) (hf D name)).2
    ⟨(found, clean d), (yields_findInDir site).2 ⟨hlooks, rfl⟩, hp⟩

theorem LeadsTo.unique {path : List UInt8} {D D' : Nat} {name name' : Name} {o : Option Found}
    (h : LeadsTo g d path D name) (hlooks : Looks g d D name o)
    (h' : LeadsTo g d path D' name') : D' = D ∧ name' = name := by
  have hresolve : Yields ((resolvePath path).run g (fun _ => none) (clean d))
      (.ok (D, name), clean d) := by
    rw [resolvePath_eq]
    exact h.yields rfl hlooks (Nat.le_refl _)
  have heq := ((yields_resolvePath hresolve).2 D' name').1 h'
  obtain ⟨rfl, rfl⟩ := Prod.mk.inj (Except.ok.inj heq)
  exact ⟨rfl, rfl⟩

theorem WithEntry.yields (kmalloc : Nat → Option (Nat → UInt8)) (h : WithEntry g d D name d') :
    Yields ((insertEntry D name attrArchive 0 0).run g kmalloc (clean d)) (eok, clean d') := by
  obtain ⟨a, r, hfree, hiter, hdone, rfl⟩ := h
  exact yields_insertEntry.2 ⟨a, r, hfree, hiter, (if_pos hdone).symm⟩

/-- A write that makes a new file and succeeds has inserted its entry and found it. -/
theorem Succeeds.writeNew (h : Succeeds (writeFound data append D name none) g kmalloc d d') :
    ShortNameEnds g d D name ∧ ∃ d₁ found, WithEntry g d D name d₁ ∧
      Looks g d₁ D name (some found) ∧
      Succeeds (writeEntry found data append) g kmalloc d₁ d' := by
  obtain ⟨⟨res, io⟩, hres, hrest⟩ := (yields_bind (regular_insertEntry D name attrArchive 0 0)
    (regular_writeNew data append D name)).1 h
  obtain ⟨a, r, hfree, hiter, hp⟩ := yields_insertEntry.1 hres
  by_cases hdone : r.2.done = true
  · rw [if_pos hdone] at hp
    obtain ⟨rfl, rfl⟩ := Prod.mk.inj hp
    obtain ⟨⟨found, io⟩, hfound, hrest⟩ := (yields_bind (regular_findInDir .target D name)
      (regular_writeAgain data append)).1 hrest
    obtain ⟨hlooks, hio⟩ := (yields_findInDir _).1 hfound
    obtain rfl : io = clean _ := hio
    cases found with
    | none =>
        obtain ⟨_, hcode⟩ := hrest
        exact absurd (Prod.mk.inj (Exec.ret.inj hcode)).1 (by decide)
    | some found =>
        exact ⟨⟨a, hfree⟩, _, found, ⟨a, r, hfree, hiter, hdone, rfl⟩, hlooks, hrest⟩
  · rw [if_neg hdone] at hp
    obtain ⟨rfl, rfl⟩ := Prod.mk.inj hp
    obtain ⟨_, hrest⟩ := hrest
    have hcode : (-enospc : Int) = eok := (Prod.mk.inj (Exec.ret.inj hrest)).1
    exact absurd hcode (by decide)

end Path

end Fat16

end BenmoshOS
