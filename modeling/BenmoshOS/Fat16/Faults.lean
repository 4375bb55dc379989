import BenmoshOS.Fat16.Driver

/-!
# FAT16: what becomes of a failed sector access

Every access of the driver can fail.  Some of its functions turn a failure into an
error code that reaches the caller; others do not: `fat16_read_fat_entry` answers a
failed read with an end-of-chain mark, the result of `fat16_write_fat_entry` is
never looked at, and `fat16_find_in_dir` and `fat16_remove_directory` ignore the
status of `iterate_directory`.

* `Tracked x good bad` — while the faults are confined to the sites that report
  them, a run of `x` either meets no failure and its result is `good`, or its result
  is `bad`.  There is one rule for sequences, one for loops, and one lemma for each
  function of the driver.
* `failures_reported_iff` — a set of sites is one at which failures are always
  reported exactly when it has none of the sites of `Site.masked`.
-/

namespace BenmoshOS

namespace Fat16

/-- The sites at which a failed access can go unnoticed. -/
def Site.masked : Site → Bool
  | .lastComponent | .existing | .target | .shortName | .emptyCheck
  | .fatUpdate | .freeWalk | .loadWalk | .appendWalk => true
  | .component | .directory | .slotSearch | .allocScan | .records | .data
  | .entryUpdate | .newDirectory | .listing => false

/-- No access at a masked site is going to fail. -/
def Io.Confined (io : Io) : Prop := ∀ n site, site.masked = true → io.faults n site = none

theorem Io.Confined.tick {io : Io} (h : io.Confined) : io.tick.Confined :=
  fun n site hsite => h (n + 1) site hsite

/-- While faults are confined, a run of `x` meets no failure and ends in `good`, or it
ends in `bad`. -/
def Tracked {α : Type} (x : Fs α) (good bad : α → Prop) : Prop :=
  ∀ env io a io', io.Confined → x env io = .ret (a, io') →
    io'.Confined ∧ ((io'.failed = io.failed ∧ good a) ∨ bad a)

namespace Tracked

variable {α β σ ρ : Type}

theorem pure {a : α} {good bad : α → Prop} (h : good a) : Tracked (Pure.pure a) good bad := by
  intro env io b io' hc hx
  simp only [Fs.pure_apply, Exec.ret.injEq, Prod.mk.injEq] at hx
  obtain ⟨rfl, rfl⟩ := hx
  exact ⟨hc, Or.inl ⟨rfl, h⟩⟩

theorem mono {x : Fs α} {good bad good' bad' : α → Prop} (h : Tracked x good bad)
    (hg : ∀ a, good a → good' a) (hb : ∀ a, bad a → bad' a) : Tracked x good' bad' := by
  intro env io a io' hc hx
  obtain ⟨hc', ⟨hf, ha⟩ | ha⟩ := h env io a io' hc hx
  · exact ⟨hc', Or.inl ⟨hf, hg a ha⟩⟩
  · exact ⟨hc', Or.inr (hb a ha)⟩

/-- Where no failure is met on the way to a bad result, nothing is lost. -/
theorem of_bad {x : Fs α} {good bad : α → Prop} (h : Tracked x bad bad) :
    Tracked x good bad := by
  intro env io a io' hc hx
  obtain ⟨hc', ⟨-, ha⟩ | ha⟩ := h env io a io' hc hx
  · exact ⟨hc', Or.inr ha⟩
  · exact ⟨hc', Or.inr ha⟩

/-- Sequences: once the first half has met a failure, the second half has to end badly
whether or not it meets another. -/
theorem bind {x : Fs α} {f : α → Fs β} {good bad : α → Prop} {good' bad' : β → Prop}
    (hx : Tracked x good bad) (hg : ∀ a, good a → Tracked (f a) good' bad')
    (hb : ∀ a, bad a → Tracked (f a) bad' bad') : Tracked (x >>= f) good' bad' := by
  intro env io b io' hc h
  obtain ⟨⟨a, io₁⟩, hx₁, hf⟩ := Exec.bind_eq_ret.1 h
  obtain ⟨hc₁, ⟨hfail, ha⟩ | ha⟩ := hx env io a io₁ hc hx₁
  · obtain ⟨hc', ⟨hfail', hb'⟩ | hb'⟩ := hg a ha env io₁ b io' hc₁ hf
    · exact ⟨hc', Or.inl ⟨hfail'.trans hfail, hb'⟩⟩
    · exact ⟨hc', Or.inr hb'⟩
  · exact of_bad (hb a ha) env io₁ b io' hc₁ hf |>.imp_right fun h => Or.inr (h.elim And.right id)

/-- The rounds of a loop after a failure: its states stay in `B` until it ends in
`bad`. -/
theorem rounds_bad {body : σ → Fs (σ ⊕ ρ)} {B : σ → Prop} {bad : ρ → Prop}
    (hB : ∀ s, B s → Tracked (body s) (Sum.elim B bad) (Sum.elim B bad)) {env : Env} {r : ρ}
    {io' : Io} : ∀ (fuel : Nat) (s : σ) (io : Io), B s → io.Confined →
      Exec.loop (Fs.round body env) fuel (s, io) = .ret (r, io') → io'.Confined ∧ bad r := by
  intro fuel
  induction fuel with
  | zero => intro s io _ _ h; simp [Exec.loop] at h
  | succ fuel ih =>
      intro s io hs hc h
      rcases Fs.round_cases h with ⟨s₁, io₁, hb, h⟩ | hb
      · obtain ⟨hc₁, hs₁⟩ := hB s hs env io _ io₁ hc hb
        exact ih s₁ io₁ (hs₁.elim And.right id) hc₁ h
      · obtain ⟨hc', hr⟩ := hB s hs env io _ io' hc hb
        exact ⟨hc', hr.elim And.right id⟩

/-- Loops: the states before a failure are in `G`, those after one in `B`. -/
theorem loop {body : σ → Fs (σ ⊕ ρ)} (G B : σ → Prop) {good bad : ρ → Prop}
    (hG : ∀ s, G s → Tracked (body s) (Sum.elim G good) (Sum.elim B bad))
    (hB : ∀ s, B s → Tracked (body s) (Sum.elim B bad) (Sum.elim B bad))
    {s : σ} (hs : G s) : Tracked (Fs.loop body s) good bad := by
  intro env io r io' hc h
  unfold Fs.loop at h
  generalize env.fuel = fuel at h
  induction fuel generalizing s io with
  | zero => simp [Exec.loop] at h
  | succ fuel ih =>
      rcases Fs.round_cases h with ⟨s₁, io₁, hb, h⟩ | hb
      · obtain ⟨hc₁, ⟨hfail, hs₁⟩ | hs₁⟩ := hG s hs env io _ io₁ hc hb
        · obtain ⟨hc', hr⟩ := ih hs₁ io₁ hc₁ h
          rw [hfail] at hr
          exact ⟨hc', hr⟩
        · obtain ⟨hc', hr⟩ := rounds_bad hB fuel s₁ io₁ hs₁ hc₁ h
          exact ⟨hc', Or.inr hr⟩
      · exact hG s hs env io _ io' hc hb

/-- Reading the geometry meets no failure. -/
theorem geometry_bind {f : Geometry → Fs β} {good bad : β → Prop}
    (h : ∀ g, Tracked (f g) good bad) : Tracked (Fs.geometry >>= f) good bad :=
  fun env io b io' hc hx => h env.geom env io b io' hc hx

theorem kmalloc_bind {n : Nat} {f : Option (Nat → UInt8) → Fs β} {good bad : β → Prop}
    (h : ∀ b, Tracked (f b) good bad) : Tracked (Fs.kmalloc n >>= f) good bad :=
  fun env io b io' hc hx => h (env.kmalloc n) env io b io' hc hx

theorem when {c : Prop} [Decidable c] {x : Fs Unit}
    (h : Tracked x (fun _ => True) fun _ => False) :
    Tracked (Fs.when c x) (fun _ => True) fun _ => False := by
  unfold Fs.when
  split
  · exact h
  · exact pure trivial

end Tracked

/-! ## Sector accesses -/

theorem ataReadSector_tracked (site : Site) (lba : Nat) :
    Tracked (ataReadSector site lba) (fun r => r ≠ none)
      (fun r => r = none ∧ site.masked = false) := by
  intro env io r io' hc hx
  unfold ataReadSector at hx
  cases hf : io.faults 0 site with
  | none =>
      simp only [hf, Exec.ret.injEq, Prod.mk.injEq] at hx
      obtain ⟨rfl, rfl⟩ := hx
      exact ⟨hc.tick, Or.inl ⟨rfl, by simp⟩⟩
  | some left =>
      simp only [hf, Exec.ret.injEq, Prod.mk.injEq] at hx
      obtain ⟨rfl, rfl⟩ := hx
      refine ⟨hc.tick, Or.inr ⟨rfl, ?_⟩⟩
      by_contra hm
      simp [hc 0 site (by simpa using hm)] at hf

theorem ataWriteSector_tracked (site : Site) (lba : Nat) (buf : Sector) :
    Tracked (ataWriteSector site lba buf) (fun r => r = true)
      (fun r => r = false ∧ site.masked = false) := by
  intro env io r io' hc hx
  unfold ataWriteSector at hx
  by_cases hfence : io.fence site lba = true
  case neg => simp [hfence] at hx
  rw [if_pos hfence] at hx
  cases hf : io.faults 0 site with
  | none =>
      simp only [hf, Exec.ret.injEq, Prod.mk.injEq] at hx
      obtain ⟨rfl, rfl⟩ := hx
      exact ⟨hc.tick, Or.inl ⟨rfl, rfl⟩⟩
  | some left =>
      simp only [hf, Exec.ret.injEq, Prod.mk.injEq] at hx
      obtain ⟨rfl, rfl⟩ := hx
      refine ⟨hc.tick, Or.inr ⟨rfl, ?_⟩⟩
      by_contra hm
      simp [hc 0 site (by simpa using hm)] at hf

/-- A read and what is done with the buffer; a failed read goes to `none`. -/
theorem readSector_bind {β : Type} {site : Site} {lba : Nat} {f : Option Sector → Fs β}
    {good bad : β → Prop} (hsome : ∀ buf, Tracked (f (some buf)) good bad)
    (hnone : site.masked = false → Tracked (f none) bad bad) :
    Tracked (ataReadSector site lba >>= f) good bad := by
  refine (ataReadSector_tracked site lba).bind (fun r hr => ?_) fun r hr => ?_
  · obtain ⟨buf, rfl⟩ := Option.ne_none_iff_exists'.1 hr
    exact hsome buf
  · rw [hr.1]
    exact hnone hr.2

theorem writeSector_bind {β : Type} {site : Site} {lba : Nat} {buf : Sector} {f : Bool → Fs β}
    {good bad : β → Prop} (htrue : Tracked (f true) good bad)
    (hfalse : site.masked = false → Tracked (f false) bad bad) :
    Tracked (ataWriteSector site lba buf >>= f) good bad := by
  refine (ataWriteSector_tracked site lba buf).bind (fun r hr => ?_) fun r hr => ?_
  · rw [hr]
    exact htrue
  · rw [hr.1]
    exact hfalse hr.2

/-! ## Layer 1 -/

theorem readFatEntry_tracked (site : Site) (cluster : Nat) :
    Tracked (readFatEntry site cluster) (fun _ => True)
      (fun v => v = 0xFFFF ∧ site.masked = false) := by
  refine Tracked.geometry_bind fun g => readSector_bind (fun buf => ?_) fun hs => ?_
  · exact Tracked.pure trivial
  · exact Tracked.pure ⟨rfl, hs⟩

theorem mirrorFat_tracked (sectorOffset : Nat) (buffer : Sector) (n i : Nat) :
    Tracked (mirrorFat sectorOffset buffer n i) (fun _ => True) (fun _ => False) := by
  induction n generalizing i with
  | zero => exact Tracked.pure trivial
  | succ n ih =>
      refine Tracked.geometry_bind fun g => writeSector_bind ?_ fun hs => ?_
      · exact ih (i + 1)
      · cases hs

theorem writeFatEntry_tracked (cluster value : Nat) :
    Tracked (writeFatEntry cluster value) (fun _ => True) (fun _ => False) := by
  refine Tracked.geometry_bind fun g => readSector_bind (fun buf => ?_) fun hs => ?_
  · exact mirrorFat_tracked _ _ _ _
  · cases hs

theorem allocFrom_tracked (n s : Nat) :
    Tracked (allocFrom n s) (fun _ => True) (fun c => c = 0) := by
  induction n generalizing s with
  | zero => exact Tracked.pure trivial
  | succ n ih =>
      refine Tracked.geometry_bind fun g => readSector_bind (fun buf => ?_) fun hs => ?_
      · dsimp only
        split
        · exact ih (s + 1)
        · exact Tracked.pure trivial
        · exact (writeFatEntry_tracked _ _).bind (fun _ _ => Tracked.pure trivial)
            fun _ hf => hf.elim
      · exact Tracked.pure rfl

theorem allocCluster_tracked : Tracked allocCluster (fun _ => True) (fun c => c = 0) :=
  Tracked.geometry_bind fun g => allocFrom_tracked g.sectorsPerFat 0

theorem freeFrom_tracked (n curr : Nat) :
    Tracked (freeFrom n curr) (fun _ => True) (fun _ => False) := by
  induction n generalizing curr with
  | zero => exact Tracked.pure trivial
  | succ n ih =>
      unfold freeFrom
      split
      · refine (readFatEntry_tracked .freeWalk curr).bind (fun next _ => ?_) fun v hv => ?_
        · exact (writeFatEntry_tracked curr 0).bind (fun _ _ => ih next) fun _ hf => hf.elim
        · cases hv.2
      · exact Tracked.pure trivial

theorem freeChain_tracked (startCluster : Nat) :
    Tracked (freeChain startCluster) (fun _ => True) (fun _ => False) := by
  refine Tracked.geometry_bind fun g => ?_
  split
  · exact Tracked.pure trivial
  · exact freeFrom_tracked _ _


/-! ## Directory iteration -/

section Iteration

variable {κ : Type} {site : Site} {callback : Visitor κ}

/-- While the visitor goes on, its context stays in `P`. -/
def Keeps (callback : Visitor κ) (P : κ → Prop) : Prop :=
  ∀ sec i r context, P context → ¬ (callback sec i r context).1 > 0 →
    P (callback sec i r context).2

theorem visitRecords_keeps {P : κ → Prop} (hP : Keeps callback P) (sec : Nat) (buffer : Sector)
    (n i : Nat) (context : κ) (h : P context)
    (hgo : (visitRecords callback sec buffer n i context).1 = none) :
    P (visitRecords callback sec buffer n i context).2 := by
  induction n generalizing i context with
  | zero => exact h
  | succ n ih =>
      unfold visitRecords at hgo ⊢
      dsimp only at hgo ⊢
      split at hgo
      · simp at hgo
      · rename_i hneg
        rw [if_neg hneg]
        split at hgo
        · simp at hgo
        · rename_i hpos
          rw [if_neg hpos]
          exact ih _ _ (hP _ _ _ _ h hpos) hgo

theorem visitSectors_tracked {P : κ → Prop} (hP : Keeps callback P) (n sec : Nat) (context : κ)
    (h : P context) :
    Tracked (visitSectors site callback n sec context) (fun r => r.1 = none → P r.2)
      (fun r => r.1 ≠ none ∧ P r.2 ∧ site.masked = false) := by
  induction n generalizing sec context with
  | zero => exact Tracked.pure fun _ => h
  | succ n ih =>
      refine readSector_bind (fun buffer => ?_) fun hs => Tracked.pure ⟨by simp, h, hs⟩
      have hk := visitRecords_keeps hP sec buffer 16 0 context h
      dsimp only
      split
      · exact Tracked.pure (by simp)
      · rename_i context' heq
        rw [heq] at hk
        exact ih (sec + 1) context' (hk rfl)

/-- A failure during an iteration leaves the context in a state the visitor has not
ended the iteration with. -/
theorem iterateDirectory_tracked {P : κ → Prop} (hP : Keeps callback P) (dirCluster : Nat)
    (context : κ) (h : P context) :
    Tracked (iterateDirectory site dirCluster callback context) (fun _ => True)
      (fun r => P r.2 ∧ site.masked = false) := by
  refine Tracked.geometry_bind fun g => ?_
  split
  · exact (visitSectors_tracked hP _ _ context h).bind (fun _ _ => Tracked.pure trivial)
      fun r hr => Tracked.pure hr.2
  · refine Tracked.loop (fun s => P s.2)
      (fun s => s.1 = 0xFFFF ∧ P s.2 ∧ site.masked = false) (fun s hs => ?_) (fun s hs => ?_) h
    · refine Tracked.geometry_bind fun g => ?_
      split
      · refine (visitSectors_tracked hP _ _ s.2 hs).bind (fun r hr => ?_) fun r hr => ?_
        · obtain ⟨status, context'⟩ := r
          cases status with
          | some status => exact Tracked.pure trivial
          | none =>
              exact (readFatEntry_tracked site s.1).bind (fun _ _ => Tracked.pure (hr rfl))
                fun v hv => Tracked.pure ⟨hv.1, hr rfl, hv.2⟩
        · obtain ⟨status, context'⟩ := r
          cases status with
          | some status => exact Tracked.pure hr.2
          | none => exact absurd rfl hr.1
      · exact Tracked.pure trivial
    · -- the failed FAT read has ended the chain
      refine Tracked.geometry_bind fun g => ?_
      rw [if_neg (by rw [hs.1]; omega)]
      exact Tracked.pure hs.2

end Iteration

theorem findFileCallback_keeps (targetName : Name) :
    Keeps (findFileCallback targetName) (fun ctx => ctx.out.entry.isDirectory = false) := by
  intro sec i r ctx h
  unfold findFileCallback
  split_ifs
  all_goals first | exact fun _ => h | exact fun hgo => absurd Int.one_pos hgo

/-- A lookup that met a failure yields nothing, or an entry that is no directory: the
zeroes of the context. -/
theorem findInDir_tracked (site : Site) (dirCluster : Nat) (name : Name) :
    Tracked (findInDir site dirCluster name) (fun _ => True)
      (fun r => (∀ found, r = some found → found.entry.isDirectory = false) ∧
        site.masked = false) := by
  refine (iterateDirectory_tracked (findFileCallback_keeps name) dirCluster FindCtx.zero
    (by decide)).bind (fun _ _ => Tracked.pure trivial) fun r hr => Tracked.pure ⟨?_, hr.2⟩
  intro found hf
  split at hf
  · rw [← Option.some.inj hf]
    exact hr.1
  · simp at hf

/-- A lookup at a masked site meets no failure. -/
theorem findInDir_bind {β : Type} {site : Site} {dirCluster : Nat} {name : Name}
    {f : Option Found → Fs β} {good bad : β → Prop} (hsite : site.masked = true)
    (hf : ∀ r, Tracked (f r) good bad) : Tracked (findInDir site dirCluster name >>= f) good bad := by
  refine (findInDir_tracked site dirCluster name).bind (fun r _ => hf r) fun r hr => ?_
  simp [hsite] at hr

theorem slotSearchCallback_keeps (slotsNeeded : Nat) :
    Keeps (slotSearchCallback slotsNeeded) (fun ctx => ctx.done = false) := by
  intro sec i r ctx h
  unfold slotSearchCallback
  dsimp only
  split_ifs
  all_goals first | exact fun _ => h | exact fun hgo => absurd Int.one_pos hgo

/-! ## Paths and insertion -/

/-- The status of a resolved path. -/
def Unresolved (r : Except Int (Nat × Name)) : Prop := ∃ e, r = .error e ∧ e ≠ eok

theorem resolveFrom_tracked (n currentDir : Nat) (path : List UInt8) :
    Tracked (resolveFrom n currentDir path) (fun r => r.toBool ∨ Unresolved r) Unresolved := by
  induction n generalizing currentDir path with
  | zero => exact Tracked.pure (Or.inr ⟨_, rfl, by decide⟩)
  | succ n ih =>
      unfold resolveFrom
      dsimp only
      split
      · exact Tracked.pure (Or.inr ⟨_, rfl, by decide⟩)
      · split
        · exact ih _ _
        · split
          · refine (findInDir_tracked _ _ _).bind (fun r _ => ?_) fun r hr => ?_
            · cases r with
              | none => exact Tracked.pure (Or.inr ⟨_, rfl, by decide⟩)
              | some found =>
                  dsimp only
                  split
                  · exact ih _ _
                  · exact Tracked.pure (Or.inr ⟨_, rfl, by decide⟩)
            · cases r with
              | none => exact Tracked.pure ⟨_, rfl, by decide⟩
              | some found =>
                  dsimp only
                  rw [hr.1 found rfl]
                  exact Tracked.pure ⟨_, rfl, by decide⟩
          · split
            · exact Tracked.pure (Or.inr ⟨_, rfl, by decide⟩)
            · exact findInDir_bind rfl fun _ => Tracked.pure (Or.inl rfl)

theorem resolvePath_tracked (path : List UInt8) :
    Tracked (resolvePath path) (fun r => r.toBool ∨ Unresolved r) Unresolved := by
  unfold resolvePath
  dsimp only
  split
  · exact Tracked.pure (Or.inr ⟨_, rfl, by decide⟩)
  · exact resolveFrom_tracked _ _ _

/-- Every call begins with the resolution of its path. -/
theorem resolvePath_bind {β : Type} {path : List UInt8} {f : Except Int (Nat × Name) → Fs β}
    {good bad : β → Prop} (hok : ∀ p, Tracked (f (.ok p)) good bad)
    (herror : ∀ e, e ≠ eok → Tracked (f (.error e)) bad bad) :
    Tracked (resolvePath path >>= f) good bad := by
  refine (resolvePath_tracked path).bind (fun r hr => ?_) fun r hr => ?_
  · cases r with
    | ok p => exact hok p
    | error e =>
        obtain ⟨e', he, hne⟩ : Unresolved (.error e) := hr.resolve_left (by simp [Except.toBool])
        cases he
        exact (herror e hne).of_bad
  · obtain ⟨e, rfl, hne⟩ := hr
    exact herror e hne

theorem writeRecords_tracked (records : List Record) (currentSec : Nat) (secBuf : Sector)
    (slot : Nat) :
    Tracked (writeRecords records currentSec secBuf slot) (fun _ => True) (fun r => r ≠ eok) := by
  induction records generalizing currentSec secBuf slot with
  | nil =>
      exact writeSector_bind (Tracked.pure trivial) fun _ => Tracked.pure (by decide)
  | cons record records ih =>
      unfold writeRecords
      dsimp only
      split
      · refine writeSector_bind ?_ fun _ => Tracked.pure (by decide)
        exact readSector_bind (fun _ => ih _ _ _) fun _ => Tracked.pure (by decide)
      · exact ih _ _ _

theorem insertEntry_tracked (parentCluster : Nat) (name : Name) (attributes : UInt8)
    (cluster size : Nat) :
    Tracked (insertEntry parentCluster name attributes cluster size) (fun _ => True)
      (fun r => r ≠ eok) := by
  have hname : Tracked (Fs.loop (tryShortName parentCluster name) 1) (fun _ => True)
      (fun _ => False) := by
    refine Tracked.loop (fun _ => True) (fun _ => False) (fun attempt _ => ?_)
      (fun _ hf => hf.elim) trivial
    refine findInDir_bind rfl fun r => ?_
    cases r with
    | none => exact Tracked.pure trivial
    | some _ => exact Tracked.pure trivial
  refine hname.bind (fun sfn _ => ?_) fun _ hf => hf.elim
  refine (iterateDirectory_tracked (slotSearchCallback_keeps _) parentCluster SlotCtx.zero
    rfl).bind (fun r _ => ?_) fun r hr => ?_
  · split
    · exact readSector_bind (fun _ => writeRecords_tracked _ _ _ _) fun _ =>
        Tracked.pure (by decide)
    · exact Tracked.pure trivial
  · rw [if_neg (by rw [hr.1]; decide)]
    exact Tracked.pure (by decide)

/-! ## The public interface -/

theorem loadSectors_tracked (n lba : Nat) (st : LoadState) :
    Tracked (loadSectors n lba st) (fun _ => True) (fun r => r = none) := by
  induction n generalizing lba st with
  | zero => exact Tracked.pure trivial
  | succ n ih =>
      unfold loadSectors
      split
      · exact readSector_bind (fun _ => ih _ _) fun _ => Tracked.pure rfl
      · exact Tracked.pure trivial

theorem loadFile_tracked (path : List UInt8) :
    Tracked (loadFile path) (fun _ => True) (fun r => r = none) := by
  refine resolvePath_bind (fun p => findInDir_bind rfl fun r => ?_) fun _ _ => Tracked.pure rfl
  cases r with
  | none => exact Tracked.pure trivial
  | some found =>
      dsimp only
      split
      · exact Tracked.pure trivial
      · split
        · refine Tracked.kmalloc_bind fun b => ?_
          cases b with
          | none => exact Tracked.pure trivial
          | some _ => exact Tracked.pure trivial
        · refine Tracked.kmalloc_bind fun b => ?_
          cases b with
          | none => exact Tracked.pure trivial
          | some ramBuffer =>
              have hloop : ∀ st, Tracked (Fs.loop loadCluster st) (fun _ => True)
                  (fun r => r = none) := by
                intro st
                refine Tracked.loop (fun _ => True) (fun _ => False) (fun st _ => ?_)
                  (fun _ hf => hf.elim) trivial
                refine Tracked.geometry_bind fun g => ?_
                split
                · refine (loadSectors_tracked _ _ st).bind (fun r _ => ?_) fun r hr => ?_
                  · cases r with
                    | none => exact Tracked.pure trivial
                    | some st =>
                        refine (readFatEntry_tracked .loadWalk _).bind
                          (fun _ _ => Tracked.pure trivial) fun v hv => ?_
                        cases hv.2
                  · rw [hr]
                    exact Tracked.pure rfl
                · exact Tracked.pure trivial
              refine (hloop _).bind (fun r _ => ?_) fun r hr => ?_
              · cases r with
                | none => exact Tracked.pure trivial
                | some _ => exact Tracked.pure trivial
              · rw [hr]
                exact Tracked.pure rfl

/-- Reading a directory sector and writing it back with a change. -/
theorem updateSector_tracked (sec : Nat) (f : Sector → Sector) :
    Tracked (do
      match ← ataReadSector .entryUpdate sec with
      | none => pure (-eio)
      | some buf => if ← ataWriteSector .entryUpdate sec (f buf) then pure eok else pure (-eio))
      (fun _ => True) (fun r => r ≠ eok) :=
  readSector_bind
    (fun _ => writeSector_bind (Tracked.pure trivial) fun _ => Tracked.pure (by decide))
    fun _ => Tracked.pure (by decide)

theorem updateDir_tracked (found : Found) (entry : Record) :
    Tracked (updateDir found entry) (fun _ => True) (fun r => r ≠ eok) :=
  updateSector_tracked found.sector fun buf => setRecord buf found.idx entry

theorem markDeleted_tracked (found : Found) :
    Tracked (markDeleted found) (fun _ => True) (fun r => r ≠ eok) :=
  updateSector_tracked found.sector fun buf => setByte buf (32 * found.idx) 0xE5

theorem createFile_tracked (path : List UInt8) :
    Tracked (createFile path) (fun _ => True) (fun r => r ≠ eok) := by
  refine resolvePath_bind (fun p => findInDir_bind rfl fun r => ?_) fun _ he => Tracked.pure he
  cases r with
  | none => exact insertEntry_tracked _ _ _ _ _
  | some _ => exact Tracked.pure trivial

theorem deleteFile_tracked (path : List UInt8) :
    Tracked (deleteFile path) (fun _ => True) (fun r => r ≠ eok) := by
  refine resolvePath_bind (fun p => findInDir_bind rfl fun r => ?_) fun _ he => Tracked.pure he
  cases r with
  | none => exact Tracked.pure trivial
  | some found =>
      dsimp only
      split
      · exact Tracked.pure trivial
      · exact (Tracked.when (freeChain_tracked _)).bind (fun _ _ => markDeleted_tracked found)
          fun _ hf => hf.elim

theorem flushDirectory_tracked (n lba : Nat) (dirBuf : Sector) :
    Tracked (flushDirectory n lba dirBuf) (fun _ => True) (fun r => r = false) := by
  induction n generalizing lba dirBuf with
  | zero => exact Tracked.pure trivial
  | succ n ih => exact writeSector_bind (ih _ _) fun _ => Tracked.pure rfl

theorem makeDirectory_tracked (path : List UInt8) :
    Tracked (makeDirectory path) (fun _ => True) (fun r => r ≠ eok) := by
  refine resolvePath_bind (fun p => findInDir_bind rfl fun r => ?_) fun _ he => Tracked.pure he
  cases r with
  | some _ => exact Tracked.pure trivial
  | none =>
      refine Tracked.geometry_bind fun g => allocCluster_tracked.bind (fun c _ => ?_) fun c hc => ?_
      · split
        · exact Tracked.pure trivial
        · refine (flushDirectory_tracked _ _ _).bind (fun b _ => ?_) fun b hb => ?_
          · split
            · exact insertEntry_tracked _ _ _ _ _
            · exact Tracked.pure trivial
          · rw [hb]
            exact Tracked.pure (by decide)
      · rw [if_pos hc]
        exact Tracked.pure (by decide)

theorem removeDirectory_tracked (path : List UInt8) :
    Tracked (removeDirectory path) (fun _ => True) (fun r => r ≠ eok) := by
  refine resolvePath_bind (fun p => ?_) fun _ he => Tracked.pure he
  refine (findInDir_tracked .directory p.1 p.2).bind (fun r _ => ?_) fun r hr => ?_
  · cases r with
    | none => exact Tracked.pure trivial
    | some found =>
        dsimp only
        split
        · refine (iterateDirectory_tracked (P := fun _ => True) (fun _ _ _ _ _ _ => trivial) _ 0
            trivial).bind (fun r _ => ?_) fun r hr => ?_
          · split
            · exact Tracked.pure trivial
            · exact (freeChain_tracked _).bind (fun _ _ => markDeleted_tracked found)
                fun _ hf => hf.elim
          · cases hr.2
        · exact Tracked.pure trivial
  · cases r with
    | none => exact Tracked.pure (by decide)
    | some found =>
        dsimp only
        rw [hr.1 found rfl]
        exact Tracked.pure (by decide)

/-! ### Writing -/

theorem writeSectors_tracked (data : List UInt8) (n lba secOffset bytesWritten : Nat) :
    Tracked (writeSectors data n lba secOffset bytesWritten) (fun _ => True)
      (fun r => ∃ e, r = .error e ∧ e ≠ eok) := by
  induction n generalizing lba secOffset bytesWritten with
  | zero => exact Tracked.pure trivial
  | succ n ih =>
      have hwrite : ∀ sectorBuf, Tracked (do
          if ← ataWriteSector .data lba sectorBuf then
            writeSectors data n (lba + 1) 0
              (bytesWritten + min (512 - secOffset) (data.length - bytesWritten))
          else pure (Except.error (-eio)))
          (fun _ => True) (fun r => ∃ e, r = .error e ∧ e ≠ eok) := fun sectorBuf =>
        writeSector_bind (ih _ _ _) fun _ => Tracked.pure ⟨_, rfl, by decide⟩
      unfold writeSectors
      split
      · split
        · exact readSector_bind (fun _ => hwrite _) fun _ => Tracked.pure ⟨_, rfl, by decide⟩
        · exact hwrite _
      · exact Tracked.pure trivial

theorem nextCluster_tracked (inClusterOffset : Nat) (st : WriteState) :
    Tracked (nextCluster inClusterOffset st) (fun _ => True) (fun r => r = none) := by
  unfold nextCluster
  split
  · refine allocCluster_tracked.bind (fun c _ => ?_) fun c hc => ?_
    · split
      · exact Tracked.pure trivial
      · refine (Tracked.when ?_).bind (fun _ _ => Tracked.pure trivial) fun _ hf => hf.elim
        exact (writeFatEntry_tracked _ _).bind (fun _ _ => Tracked.pure trivial)
          fun _ hf => hf.elim
    · rw [if_pos hc]
      exact Tracked.pure rfl
  · exact Tracked.pure trivial

theorem writeRound_tracked (data : List UInt8) (append : Bool) (fileSize : Nat)
    (st : WriteState) :
    Tracked (writeRound data append fileSize st) (fun _ => True)
      (Sum.elim (fun _ => False) fun r => ∃ e, r = .error e ∧ e ≠ eok) := by
  refine Tracked.geometry_bind fun g => ?_
  split
  · refine (nextCluster_tracked _ st).bind (fun r _ => ?_) fun r hr => ?_
    · cases r with
      | none => exact Tracked.pure trivial
      | some st =>
          refine (writeSectors_tracked data _ _ _ _).bind (fun r _ => ?_) fun r hr => ?_
          · cases r with
            | error e => exact Tracked.pure trivial
            | ok bytesWritten => exact Tracked.pure trivial
          · obtain ⟨e, rfl, he⟩ := hr
            exact Tracked.pure ⟨e, rfl, he⟩
    · rw [hr]
      exact Tracked.pure ⟨_, rfl, by decide⟩
  · exact Tracked.pure trivial

theorem prepareWrite_tracked (append : Bool) (startingCluster : Nat) :
    Tracked (prepareWrite append startingCluster) (fun _ => True) (fun _ => False) := by
  unfold prepareWrite
  split
  · split
    · have hwalk : Tracked (Fs.loop walkRound (startingCluster, 0)) (fun _ => True)
          (fun _ => False) := by
        refine Tracked.loop (fun _ => True) (fun _ => False) (fun p _ => ?_)
          (fun _ hf => hf.elim) trivial
        unfold walkRound
        split
        · refine (readFatEntry_tracked .appendWalk p.1).bind (fun next _ => ?_) fun v hv => ?_
          · split
            · exact Tracked.pure trivial
            · exact Tracked.pure trivial
          · cases hv.2
        · exact Tracked.pure trivial
      exact hwalk.bind (fun _ _ => Tracked.pure trivial) fun _ hf => hf.elim
    · exact Tracked.pure trivial
  · exact (Tracked.when (freeChain_tracked _)).bind (fun _ _ => Tracked.pure trivial)
      fun _ hf => hf.elim

theorem writeEntry_tracked (found : Found) (data : List UInt8) (append : Bool) :
    Tracked (writeEntry found data append) (fun _ => True) (fun r => r ≠ eok) := by
  unfold writeEntry
  dsimp only
  split
  · exact Tracked.pure trivial
  · split
    · exact (Tracked.when (freeChain_tracked _)).bind (fun _ _ => updateDir_tracked _ _)
        fun _ hf => hf.elim
    · refine (prepareWrite_tracked _ _).bind (fun st _ => ?_) fun _ hf => hf.elim
      have hloop : Tracked (Fs.loop (writeRound data append found.entry.fileSize) st)
          (fun _ => True) (fun r => ∃ e, r = .error e ∧ e ≠ eok) := by
        refine Tracked.loop (fun _ => True) (fun _ => False) (fun st _ => ?_)
          (fun _ hf => hf.elim) trivial
        refine (writeRound_tracked data append _ st).mono (fun x _ => ?_) fun x hx => hx
        cases x <;> trivial
      refine hloop.bind (fun r _ => ?_) fun r hr => ?_
      · cases r with
        | error e => exact Tracked.pure trivial
        | ok firstCluster => exact updateDir_tracked _ _
      · obtain ⟨e, rfl, he⟩ := hr
        exact Tracked.pure he

theorem writeFile_tracked (path data : List UInt8) (append : Bool) :
    Tracked (writeFile path data append) (fun _ => True) (fun r => r ≠ eok) := by
  refine resolvePath_bind (fun p => findInDir_bind rfl fun r => ?_) fun _ he => Tracked.pure he
  cases r with
  | some found => exact writeEntry_tracked _ _ _
  | none =>
      refine (insertEntry_tracked _ _ _ _ _).bind (fun res _ => ?_) fun res hres => ?_
      · split
        · exact Tracked.pure trivial
        · refine findInDir_bind rfl fun r => ?_
          cases r with
          | none => exact Tracked.pure trivial
          | some found => exact writeEntry_tracked _ _ _
      · rw [if_pos hres]
        exact Tracked.pure hres

/-- While faults are confined, a call that meets a failure does not return `EOK`. -/
theorem run_tracked (call : Call) : Tracked call.run (fun _ => True) (fun r => r ≠ eok) := by
  cases call with
  | createFile path => exact createFile_tracked path
  | writeFile path data append => exact writeFile_tracked path data append
  | deleteFile path => exact deleteFile_tracked path
  | makeDirectory path => exact makeDirectory_tracked path
  | removeDirectory path => exact removeDirectory_tracked path

/-! ## Which failures are reported -/

/-- A failed access is never followed by success, as far as the failures are all at
sites of `A`: on every volume no call returns `EOK` after a failed access, and
`fat16_load_file` returns no buffer. -/
def ReportsAt (A : Site → Prop) : Prop :=
  (∀ env (call : Call) d faults code io', (∀ n site, ¬ A site → faults n site = none) →
    call.run env (faulty d faults) = .ret (code, io') → io'.failed ≠ [] → code ≠ eok) ∧
  (∀ env path d faults buffer io', (∀ n site, ¬ A site → faults n site = none) →
    loadFile path env (faulty d faults) = .ret (buffer, io') → io'.failed ≠ [] → buffer = none)

theorem reportsAt_of_unmasked {A : Site → Prop} (hA : ∀ site, A site → site.masked = false) :
    ReportsAt A := by
  have hconf : ∀ (d : Disk) (faults : Nat → Site → Option Sector),
      (∀ n site, ¬ A site → faults n site = none) → Io.Confined (faulty d faults) := by
    intro d faults h n site hm
    exact h n site fun hs => by simp [hA site hs] at hm
  refine ⟨fun env call d faults code io' h hrun hfail => ?_,
    fun env path d faults buffer io' h hrun hfail => ?_⟩
  · obtain ⟨-, ⟨hf, -⟩ | hbad⟩ := run_tracked call env _ code io' (hconf d faults h) hrun
    · exact absurd hf hfail
    · exact hbad
  · obtain ⟨-, ⟨hf, -⟩ | hbad⟩ := loadFile_tracked path env _ buffer io' (hconf d faults h) hrun
    · exact absurd hf hfail
    · exact hbad

/-! A small volume: one FAT sector, a root directory of two sectors, eight clusters of
one sector, the file `F` of one byte in cluster 2 and the empty directory `D` in
cluster 3. -/

def sampleGeometry : Geometry := .small 2 1 1 8 (by decide)

def sampleEnv : Env := ⟨sampleGeometry, 10, fun _ => some fun _ => 0⟩

def sampleDisk : Disk := fun lba =>
  if lba = 1 then setU16 (setU16 (fun _ => 0) 4 0xFFFF) 6 0xFFFF
  else if lba = 2 then
    setRecord (setRecord (fun _ => 0) 0 (sfnRecord (padTo 11 [0x46]) attrArchive 2 1)) 1
      (sfnRecord (padTo 11 [0x44]) attrDirectory 3 0)
  else if lba = 5 then newDirSector 3 0
  else fun _ => 0

/-- A root directory whose first sector holds only long-name fragments that reach the
flag `found`. -/
def flaggedDisk : Disk := fun lba =>
  if lba = 2 then fun k => lfnRecord (List.replicate 260 0x41) 0 20 false (k % 32) else fun _ => 0

/-- Every access at `site` fails from access number `first` on. -/
def failing (site : Site) (first : Nat) : Nat → Site → Option Sector :=
  fun n s => if s = site ∧ first ≤ n then some fun _ => 0 else none

theorem failing_confined {A : Site → Prop} {site : Site} (hA : A site) (first n : Nat) (s : Site)
    (hs : ¬ A s) : failing site first n s = none := by
  refine if_neg ?_
  rintro ⟨rfl, -⟩
  exact hs hA

/-- The result of a call and whether an access has failed. -/
def outcome {α : Type} (x : Exec (α × Io)) : Option (α × Bool) :=
  match x with
  | .ret (a, io) => some (a, io.failed ≠ [])
  | .panic _ => none
  | .spin => none

theorem ret_of_outcome {α : Type} {x : Exec (α × Io)} {a : α} (h : outcome x = some (a, true)) :
    ∃ io', x = .ret (a, io') ∧ io'.failed ≠ [] := by
  cases x with
  | ret p =>
      obtain ⟨b, io'⟩ := p
      simp only [outcome, Option.some.injEq, Prod.mk.injEq, decide_eq_true_eq] at h
      exact ⟨io', by rw [h.1], h.2⟩
  | panic p => simp [outcome] at h
  | spin => simp [outcome] at h

theorem not_reportsAt_of_run {A : Site → Prop} (site : Site) (hA : A site) (call : Call)
    (d : Disk) (first : Nat)
    (h : outcome (call.run sampleEnv (faulty d (failing site first))) = some (eok, true)) :
    ¬ ReportsAt A := by
  intro hr
  obtain ⟨io', hrun, hfail⟩ := ret_of_outcome h
  exact hr.1 sampleEnv call d (failing site first) eok io' (failing_confined hA first) hrun hfail
    rfl

theorem not_reportsAt_of_load {A : Site → Prop} (site : Site) (hA : A site) (path : List UInt8)
    (d : Disk) (first : Nat)
    (h : (outcome (loadFile path sampleEnv (faulty d (failing site first)))).map
      (fun p => (p.1.isSome, p.2)) = some (true, true)) : ¬ ReportsAt A := by
  intro hr
  obtain ⟨⟨buffer, b⟩, ho, hp⟩ := Option.map_eq_some_iff.1 h
  simp only [Prod.mk.injEq] at hp
  obtain ⟨io', hrun, hfail⟩ := ret_of_outcome (a := buffer) (by rw [ho, hp.2])
  have hnone := hr.2 sampleEnv path d (failing site first) buffer io'
    (failing_confined hA first) hrun hfail
  simp [hnone] at hp

/-- Each masked site has a volume and a call on which its failures go unnoticed. -/
theorem not_reportsAt_of_masked {A : Site → Prop} {site : Site} (hA : A site)
    (hm : site.masked = true) : ¬ ReportsAt A := by
  -- `/A`, `/D` and `/F` as paths
  cases site with
  | lastComponent =>
      exact not_reportsAt_of_run _ hA (.createFile [0x2F, 0x41]) sampleDisk 0 (by decide +kernel)
  | existing =>
      exact not_reportsAt_of_run _ hA (.createFile [0x2F, 0x46]) sampleDisk 0 (by decide +kernel)
  | target => exact not_reportsAt_of_load _ hA [0x2F, 0x46] flaggedDisk 3 (by decide +kernel)
  | shortName =>
      exact not_reportsAt_of_run _ hA (.createFile [0x2F, 0x41]) sampleDisk 0 (by decide +kernel)
  | emptyCheck =>
      exact not_reportsAt_of_run _ hA (.removeDirectory [0x2F, 0x44]) sampleDisk 0 (by decide +kernel)
  | fatUpdate =>
      exact not_reportsAt_of_run _ hA (.makeDirectory [0x2F, 0x41]) sampleDisk 0 (by decide +kernel)
  | freeWalk =>
      exact not_reportsAt_of_run _ hA (.deleteFile [0x2F, 0x46]) sampleDisk 0 (by decide +kernel)
  | loadWalk => exact not_reportsAt_of_load _ hA [0x2F, 0x46] sampleDisk 0 (by decide +kernel)
  | appendWalk =>
      exact not_reportsAt_of_run _ hA (.writeFile [0x2F, 0x46] [0x41] true) sampleDisk 0
        (by decide +kernel)
  | component => cases hm
  | directory => cases hm
  | slotSearch => cases hm
  | allocScan => cases hm
  | records => cases hm
  | data => cases hm
  | entryUpdate => cases hm
  | newDirectory => cases hm
  | listing => cases hm

/-- **Failures that are reported.**  A failed sector access is never followed by
success exactly where no access can fail at a masked site. -/
theorem failures_reported_iff (A : Site → Prop) :
    ReportsAt A ↔ ∀ site, A site → site.masked = false := by
  constructor
  · intro h site hsite
    by_contra hm
    exact not_reportsAt_of_masked hsite (by simpa using hm) h
  · exact reportsAt_of_unmasked

/-- With failures at every site, `fat16_create_file` of the existing file `/F` returns
`EOK` when the reads of the root directory fail in its lookup. -/
theorem failure_goes_unnoticed : ¬ ReportsAt fun _ => True :=
  not_reportsAt_of_run .existing trivial (.createFile [0x2F, 0x46]) sampleDisk 0 (by decide +kernel)

end Fat16

end BenmoshOS
