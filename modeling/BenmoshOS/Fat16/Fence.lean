import BenmoshOS.Fat16.Driver
import BenmoshOS.Lib.Fuel

/-!
# FAT16: calls on a fenced disk

A run of the driver is unfinished, returns, or — on a disk with a fence, and only there —
ends at a write outside the fence.  This file says how these fit together along sequences,
branches and loops.

* `fenced F d` — the disk `d` with the fence `F`, on which no access fails.
* `Fs.Regular` — more fuel changes only unfinished runs, and a run on a fenced disk is the
  run without a fence unless it is stopped.
* `Fs.Total` — a regular call that never is unfinished.
* `Fs.Within` — no run is stopped: all sectors that are written are inside the fence.
-/

namespace BenmoshOS

namespace Fat16

open Exec (Yields Halts Panics)

variable {α β σ ρ : Type}

/-- A disk with a fence, on which no access fails. -/
def fenced (F : Site → Nat → Bool) (d : Disk) : Io := { clean d with fence := F }

/-- The call as a function of its fuel. -/
def Fs.run (x : Fs α) (g : Geometry) (kmalloc : Nat → Option (Nat → UInt8)) (io : Io) :
    Nat → Exec (α × Io) :=
  fun fuel => x ⟨g, fuel, kmalloc⟩ io

/-- The first run, on a fenced disk, does what the second one does without the fence, unless
it is stopped. -/
inductive Mirrors (F : Site → Nat → Bool) : Exec (α × Io) → Exec (α × Io) → Prop
  | stopped {p : Panic} {y : Exec (α × Io)} (hF : ∃ site lba, F site lba = false) :
      Mirrors F (.panic p) y
  | spin : Mirrors F .spin .spin
  | ret (a : α) (d : Disk) : Mirrors F (.ret (a, fenced F d)) (.ret (a, clean d))

/-- More fuel changes only unfinished runs of the call, and a fence changes them only by
stopping them. -/
structure Fs.Regular (x : Fs α) : Prop where
  mono : ∀ g kmalloc io, Exec.Mono (x.run g kmalloc io)
  mirrors : ∀ g kmalloc F d n,
    Mirrors F (x.run g kmalloc (fenced F d) n) (x.run g kmalloc (clean d) n)

/-- The call is finished with any fuel. -/
structure Fs.Total (x : Fs α) : Prop where
  finished : ∀ g kmalloc io, ∃ y, y ≠ .spin ∧ ∀ n, x.run g kmalloc io n = y
  mirrors : ∀ g kmalloc F d n,
    Mirrors F (x.run g kmalloc (fenced F d) n) (x.run g kmalloc (clean d) n)

namespace Mirrors

variable {F : Site → Nat → Bool} {x y : Exec (α × Io)}

theorem bind {f : α → Io → Exec (β × Io)} (h : Mirrors F x y)
    (hf : ∀ a d, Mirrors F (f a (fenced F d)) (f a (clean d))) :
    Mirrors F (x >>= fun p => f p.1 p.2) (y >>= fun p => f p.1 p.2) := by
  cases h with
  | stopped hF => exact .stopped hF
  | spin => exact .spin
  | ret a d => exact hf a d

/-- A run without a fence is not stopped. -/
theorem clean_cases (h : Mirrors (fun _ _ => true) x y) :
    x = .spin ∨ ∃ a d, x = .ret (a, clean d) := by
  cases h with
  | stopped hF =>
      obtain ⟨_, _, hF⟩ := hF
      exact absurd hF (by simp)
  | spin => exact Or.inl rfl
  | ret a d => exact Or.inr ⟨a, d, rfl⟩

end Mirrors

namespace Fs

variable {x : Fs α} {f : α → Fs β} {g : Geometry} {kmalloc : Nat → Option (Nat → UInt8)}
  {io : Io} {d : Disk}

theorem Total.regular (h : x.Total) : x.Regular := by
  refine ⟨fun g kmalloc io m n _ => Or.inr ?_, h.mirrors⟩
  obtain ⟨y, -, hy⟩ := h.finished g kmalloc io
  rw [hy, hy]

/-- What a call without a fence yields is a disk without a fence. -/
theorem Regular.clean_of_yields (h : x.Regular) {p : α × Io}
    (hp : Yields (x.run g kmalloc (clean d)) p) : ∃ d', p.2 = clean d' := by
  obtain ⟨n, hn⟩ := hp
  rcases (h.mirrors g kmalloc (fun _ _ => true) d n).clean_cases with hspin | ⟨a, d', hret⟩
  · exact absurd (hn.symm.trans hspin) (by simp)
  · rw [Exec.ret.inj (hn.symm.trans hret)]
    exact ⟨d', rfl⟩

theorem Total.runs (h : x.Total) (g : Geometry) (kmalloc : Nat → Option (Nat → UInt8))
    (d : Disk) : ∃ a d', ∀ n, x.run g kmalloc (clean d) n = .ret (a, clean d') := by
  obtain ⟨y, hspin, hy⟩ := h.finished g kmalloc (clean d)
  rcases (h.mirrors g kmalloc (fun _ _ => true) d 0).clean_cases with hrun | ⟨a, d', hrun⟩
  · exact absurd ((hy 0).symm.trans hrun) hspin
  · refine ⟨a, d', fun n => ?_⟩
    rw [hy n, ← hy 0]
    exact hrun

/-- The fuel does not matter. -/
theorem Total.run_eq (h : x.Total) (g : Geometry) (kmalloc : Nat → Option (Nat → UInt8)) (io : Io)
    (n : Nat) : x.run g kmalloc io n = x.run g kmalloc io 0 := by
  obtain ⟨y, -, hy⟩ := h.finished g kmalloc io
  rw [hy n, hy 0]

theorem Total.yields (h : x.Total) (g : Geometry) (kmalloc : Nat → Option (Nat → UInt8))
    (d : Disk) : ∃ a d', Yields (x.run g kmalloc (clean d)) (a, clean d') := by
  obtain ⟨a, d', hrun⟩ := h.runs g kmalloc d
  exact ⟨a, d', 0, hrun 0⟩

theorem Total.halts (h : x.Total) (g : Geometry) (kmalloc : Nat → Option (Nat → UInt8))
    (d : Disk) : Halts (x.run g kmalloc (clean d)) := by
  obtain ⟨a, d', h⟩ := h.yields g kmalloc d
  exact h.halts

/-- A run that is finished in one way. -/
theorem finished_ret {y : Nat → Exec α} (a : α) (h : ∀ n, y n = .ret a) :
    ∃ z, z ≠ .spin ∧ ∀ n, y n = z :=
  ⟨.ret a, by simp, h⟩

theorem total_pure (a : α) : Total (pure a : Fs α) :=
  ⟨fun _ _ io => finished_ret (a, io) fun _ => rfl, fun _ _ _ d _ => .ret a d⟩

theorem total_geometry : Total geometry :=
  ⟨fun g _ io => finished_ret (g, io) fun _ => rfl, fun g _ _ d _ => .ret g d⟩

theorem total_kmalloc (n : Nat) : Total (Fs.kmalloc n) :=
  ⟨fun _ kmalloc io => finished_ret (kmalloc n, io) fun _ => rfl,
    fun _ kmalloc _ d _ => .ret (kmalloc n) d⟩

theorem total_read (site : Site) (lba : Nat) : Total (ataReadSector site lba) := by
  refine ⟨fun g kmalloc io => ?_, fun _ _ _ d _ => .ret (some (d lba)) d⟩
  unfold run ataReadSector
  cases io.faults 0 site with
  | none => exact finished_ret _ fun _ => rfl
  | some _ => exact finished_ret _ fun _ => rfl

/-- A write on a fenced disk. -/
theorem ataWriteSector_fenced {env : Env} {F : Site → Nat → Bool} (site : Site) (lba : Nat)
    (buf : Sector) (d : Disk) : ataWriteSector site lba buf env (fenced F d) =
      if F site lba then .ret (true, fenced F (d.set lba buf)) else .panic (outsideFence lba) :=
  rfl

theorem total_write (site : Site) (lba : Nat) (buf : Sector) :
    Total (ataWriteSector site lba buf) := by
  constructor
  · intro g kmalloc io
    unfold run ataWriteSector
    split
    · cases io.faults 0 site with
      | none => exact finished_ret _ fun _ => rfl
      | some _ => exact finished_ret _ fun _ => rfl
    · exact ⟨.panic (outsideFence lba), by simp, fun _ => rfl⟩
  · intro g kmalloc F d n
    show Mirrors F (ataWriteSector site lba buf _ (fenced F d)) _
    rw [ataWriteSector_fenced]
    split
    · exact .ret true (d.set lba buf)
    · rename_i hF
      exact .stopped ⟨site, lba, by simpa using hF⟩

theorem Regular.bind (hx : x.Regular) (hf : ∀ a, (f a).Regular) : Regular (x >>= f) :=
  ⟨fun g kmalloc io => (hx.mono g kmalloc io).bind fun p => (hf p.1).mono g kmalloc p.2,
    fun g kmalloc F d n => (hx.mirrors g kmalloc F d n).bind fun a d =>
      (hf a).mirrors g kmalloc F d n⟩

theorem Total.bind (hx : x.Total) (hf : ∀ a, (f a).Total) : Total (x >>= f) := by
  refine ⟨fun g kmalloc io => ?_, (hx.regular.bind fun a => (hf a).regular).mirrors⟩
  obtain ⟨y, hspin, hy⟩ := hx.finished g kmalloc io
  have hrun : ∀ n, (x >>= f).run g kmalloc io n = y >>= fun p => (f p.1).run g kmalloc p.2 n := by
    intro n
    show (x.run g kmalloc io n >>= fun p => (f p.1).run g kmalloc p.2 n) = _
    rw [hy]
  cases y with
  | ret p =>
      obtain ⟨z, hspin, hz⟩ := (hf p.1).finished g kmalloc p.2
      exact ⟨z, hspin, fun n => (hrun n).trans (hz n)⟩
  | panic p => exact ⟨.panic p, by simp, hrun⟩
  | spin => exact absurd rfl hspin

theorem regular_ite {c : Prop} [Decidable c] {y : Fs α} (hx : x.Regular) (hy : y.Regular) :
    Regular (if c then x else y) := by
  split
  · exact hx
  · exact hy

theorem total_ite {c : Prop} [Decidable c] {y : Fs α} (hx : x.Total) (hy : y.Total) :
    Total (if c then x else y) := by
  split
  · exact hx
  · exact hy

theorem total_when {c : Prop} [Decidable c] {y : Fs Unit} (hy : y.Total) : Total (Fs.when c y) :=
  total_ite hy (total_pure ())

/-! ## What sequences and loops yield -/

/-- What a sequence yields. -/
theorem yields_bind (hx : x.Regular) (hf : ∀ a, (f a).Regular) {q : β × Io} :
    Yields ((x >>= f).run g kmalloc io) q ↔
      ∃ p, Yields (x.run g kmalloc io) p ∧ Yields ((f p.1).run g kmalloc p.2) q :=
  Exec.yields_bind (hx.mono g kmalloc io) fun p => (hf p.1).mono g kmalloc p.2

/-- A sequence halts when its first half yields something with which the second half
halts. -/
theorem halts_bind (hx : x.Regular) (hf : ∀ a, (f a).Regular) :
    Halts ((x >>= f).run g kmalloc io) ↔
      ∃ p, Yields (x.run g kmalloc io) p ∧ Halts ((f p.1).run g kmalloc p.2) := by
  constructor
  · rintro ⟨q, hq⟩
    obtain ⟨p, hp, hq⟩ := (yields_bind hx hf).1 hq
    exact ⟨p, hp, q, hq⟩
  · rintro ⟨p, hp, q, hq⟩
    exact ⟨q, (yields_bind hx hf).2 ⟨p, hp, hq⟩⟩

/-- A sequence whose first half yields `p`. -/
theorem halts_bind_of_yields (hx : x.Regular) (hf : ∀ a, (f a).Regular) {p : α × Io}
    (hp : Yields (x.run g kmalloc io) p) :
    Halts ((x >>= f).run g kmalloc io) ↔ Halts ((f p.1).run g kmalloc p.2) := by
  rw [halts_bind hx hf]
  constructor
  · rintro ⟨q, hq, h⟩
    rwa [hp.unique (hx.mono g kmalloc io) hq]
  · exact fun h => ⟨p, hp, h⟩

section Loop

variable {body : σ → Fs (σ ⊕ ρ)}

theorem mono_round (h : ∀ s, (body s).Regular) (g : Geometry)
    (kmalloc : Nat → Option (Nat → UInt8)) (p : σ × Io) :
    Exec.Mono fun n => round body ⟨g, n, kmalloc⟩ p := by
  refine ((h p.1).mono g kmalloc p.2).bind fun q => ?_
  cases q.1 with
  | inl s => exact Exec.mono_const _
  | inr r => exact Exec.mono_const _

/-- The rounds of a loop on a fenced disk. -/
theorem mirrors_rounds {F : Site → Nat → Bool} {env : Env}
    (h : ∀ s d, Mirrors F (body s env (fenced F d)) (body s env (clean d))) (k : Nat) (s : σ)
    (d : Disk) : Mirrors F (Exec.loop (round body env) k (s, fenced F d))
      (Exec.loop (round body env) k (s, clean d)) := by
  induction k generalizing s d with
  | zero => exact .spin
  | succ k ih =>
      have hbody := h s d
      unfold Exec.loop round
      simp only
      generalize body s env (fenced F d) = x at hbody
      generalize body s env (clean d) = y at hbody
      cases hbody with
      | stopped hF => exact .stopped hF
      | spin => exact .spin
      | ret z d' =>
          cases z with
          | inl s' => exact ih s' d'
          | inr r => exact .ret r d'

theorem regular_loop (h : ∀ s, (body s).Regular) (s : σ) : Regular (Fs.loop body s) :=
  ⟨fun g kmalloc io => Exec.Mono.loop (mono_round h g kmalloc) (s, io),
    fun g kmalloc F d n => mirrors_rounds (fun s d => (h s).mirrors g kmalloc F d n) n s d⟩

/-- A round does what the body does. -/
theorem round_of_ret {env : Env} {s : σ} {y : σ ⊕ ρ} {io' : Io}
    (h : body s env io = .ret (y, io')) :
    round body env (s, io) = .ret (y.map (fun s => (s, io')) fun r => (r, io')) := by
  unfold round
  rw [h, Exec.ret_bind]
  cases y with
  | inl s => rfl
  | inr r => rfl

theorem yields_round {s : σ} {y : σ ⊕ ρ} {io' : Io}
    (hy : Yields ((body s).run g kmalloc io) (y, io')) :
    Yields (fun n => round body ⟨g, n, kmalloc⟩ (s, io))
      (y.map (fun s => (s, io')) fun r => (r, io')) := by
  obtain ⟨n, hn⟩ := hy
  exact ⟨n, round_of_ret hn⟩

end Loop

end Fs

/-! ## Calls that succeed -/

section Success

variable {x : Fs Int} {g : Geometry} {kmalloc : Nat → Option (Nat → UInt8)} {d : Disk}

/-- The call succeeds and leaves `d'`. -/
def Succeeds (x : Fs Int) (g : Geometry) (kmalloc : Nat → Option (Nat → UInt8))
    (d d' : Disk) : Prop := Yields (x.run g kmalloc (clean d)) (eok, clean d')

/-- The code that a run returns. -/
def returned : Exec (Int × Io) → Option Int
  | .ret p => some p.1
  | _ => none

/-- The disk that a run leaves. -/
def left : Exec (Int × Io) → Disk
  | .ret p => p.2.disk
  | _ => fun _ _ => 0

/-- A run that returns a code yields it, and the disk it leaves. -/
theorem yields_of_returned (hx : x.Regular) {n : Nat} {code : Int}
    (h : returned (x.run g kmalloc (clean d) n) = some code) :
    Yields (x.run g kmalloc (clean d)) (code, clean (left (x.run g kmalloc (clean d) n))) := by
  rcases (hx.mirrors g kmalloc (fun _ _ => true) d n).clean_cases with hspin | ⟨a, d', hret⟩
  · have hspin : x.run g kmalloc (clean d) n = .spin := hspin
    rw [hspin] at h
    exact absurd h (by simp [returned])
  · have hret : x.run g kmalloc (clean d) n = .ret (a, clean d') := hret
    refine ⟨n, ?_⟩
    rw [hret] at h ⊢
    obtain rfl : a = code := Option.some.inj h
    rfl

end Success

/-! ## Calls that stay inside the fence -/

open Classical in
/-- No run of the call is stopped: at each site it writes only sectors that are in `P`. -/
noncomputable def Fs.Within (P : Site → Nat → Prop) (x : Fs α) (g : Geometry)
    (kmalloc : Nat → Option (Nat → UInt8)) (d : Disk) : Prop :=
  ¬ Panics (x.run g kmalloc (fenced (fun site lba => decide (P site lba)) d))

/-- The call writes nothing. -/
structure Fs.Quiet (x : Fs α) : Prop where
  regular : x.Regular
  within : ∀ P g kmalloc d, x.Within P g kmalloc d

namespace Fs

variable {P : Site → Nat → Prop} {x : Fs α} {f : α → Fs β} {g : Geometry}
  {kmalloc : Nat → Option (Nat → UInt8)} {d d' : Disk}

/-- What a call yields on a fenced disk. -/
theorem Regular.yields_fenced (h : x.Regular) {F : Site → Nat → Bool} {p : α × Io}
    (hp : Yields (x.run g kmalloc (fenced F d)) p) :
    ∃ a d', p = (a, fenced F d') ∧ Yields (x.run g kmalloc (clean d)) (a, clean d') := by
  obtain ⟨n, hn⟩ := hp
  have hmirrors := h.mirrors g kmalloc F d n
  rw [hn] at hmirrors
  generalize hrun : x.run g kmalloc (clean d) n = y at hmirrors
  cases hmirrors with
  | ret a d' => exact ⟨a, d', rfl, n, hrun⟩

/-- What a call yields that is not stopped. -/
theorem Regular.yields_of_not_panics (h : x.Regular) {F : Site → Nat → Bool} {a : α}
    (hpanics : ¬ Panics (x.run g kmalloc (fenced F d)))
    (hp : Yields (x.run g kmalloc (clean d)) (a, clean d')) :
    Yields (x.run g kmalloc (fenced F d)) (a, fenced F d') := by
  obtain ⟨n, hn⟩ := hp
  refine ⟨n, ?_⟩
  have hmirrors := h.mirrors g kmalloc F d n
  rw [hn] at hmirrors
  generalize hrun : x.run g kmalloc (fenced F d) n = y at hmirrors
  generalize hz : (Exec.ret (a, clean d') : Exec (α × Io)) = z at hmirrors
  cases hmirrors with
  | stopped hF => exact absurd ⟨n, _, hrun⟩ hpanics
  | spin => exact absurd hz (by simp)
  | ret b d'' =>
      obtain ⟨rfl, hclean⟩ := Prod.mk.inj (Exec.ret.inj hz)
      obtain rfl : d' = d'' := congrArg Io.disk hclean
      rfl

/-- **Sequences** stay inside the fence when both halves do. -/
theorem within_bind (hx : x.Regular) (hf : ∀ a, (f a).Regular) :
    (x >>= f).Within P g kmalloc d ↔ x.Within P g kmalloc d ∧
      ∀ a d', Yields (x.run g kmalloc (clean d)) (a, clean d') → (f a).Within P g kmalloc d' := by
  unfold Within
  rw [show Panics ((x >>= f).run g kmalloc _) ↔ _ from
    Exec.panics_bind (hx.mono g kmalloc _) fun p => (hf p.1).mono g kmalloc p.2, not_or]
  refine and_congr_right fun hwithin => ?_
  constructor
  · intro h a d' hp hpanics
    exact h ⟨_, hx.yields_of_not_panics hwithin hp, hpanics⟩
  · rintro h ⟨p, hp, hpanics⟩
    obtain ⟨a, d', rfl, hyields⟩ := hx.yields_fenced hp
    exact h a d' hyields hpanics

/-- A sequence whose first half writes nothing. -/
theorem Quiet.within_bind (hx : x.Quiet) (hf : ∀ a, (f a).Regular) :
    (x >>= f).Within P g kmalloc d ↔
      ∀ a d', Yields (x.run g kmalloc (clean d)) (a, clean d') → (f a).Within P g kmalloc d' :=
  (Fs.within_bind hx.regular hf).trans (and_iff_right (hx.within P g kmalloc d))

/-- The only call that is stopped. -/
theorem within_write (site : Site) (lba : Nat) (buf : Sector) :
    (ataWriteSector site lba buf).Within P g kmalloc d ↔ P site lba := by
  unfold Within Panics run
  simp only [ataWriteSector_fenced, decide_eq_true_eq]
  by_cases hP : P site lba
  · simp [hP]
  · simp [hP]

theorem within_geometry_bind {f : Geometry → Fs β} :
    (geometry >>= f).Within P g kmalloc d ↔ (f g).Within P g kmalloc d := Iff.rfl

theorem within_read_bind {site : Site} {lba : Nat} {f : Option Sector → Fs β} :
    (ataReadSector site lba >>= f).Within P g kmalloc d ↔
      (f (some (d lba))).Within P g kmalloc d := Iff.rfl

/-- A sequence whose first half comes to the same end with any fuel. -/
theorem Total.within_bind (hx : x.Total) {a : α} {n : Nat}
    (hrun : x.run g kmalloc (clean d) n = .ret (a, clean d')) :
    (x >>= f).Within P g kmalloc d ↔
      x.Within P g kmalloc d ∧ (f a).Within P g kmalloc d' := by
  unfold Within
  generalize hF : (fun site lba => @decide (P site lba) (Classical.propDecidable _)) = F
  obtain ⟨y, -, hy⟩ := hx.finished g kmalloc (fenced F d)
  have hbind : (x >>= f).run g kmalloc (fenced F d) =
      fun n => y >>= fun p => (f p.1).run g kmalloc p.2 n := by
    funext n
    show (x.run g kmalloc (fenced F d) n >>= fun p => (f p.1).run g kmalloc p.2 n) = _
    rw [hy]
  have hmirrors := hx.mirrors g kmalloc F d n
  rw [hy, hrun] at hmirrors
  have hx' : x.run g kmalloc (fenced F d) = fun _ => y := funext hy
  rw [hbind, hx']
  generalize hz : (Exec.ret (a, clean d') : Exec (α × Io)) = z at hmirrors
  cases hmirrors with
  | stopped hF => exact iff_of_false (not_not_intro ⟨0, _, rfl⟩) fun h => h.1 ⟨0, _, rfl⟩
  | spin => exact absurd hz (by simp)
  | ret b d'' =>
      obtain ⟨rfl, hclean⟩ := Prod.mk.inj (Exec.ret.inj hz)
      obtain rfl : d' = d'' := congrArg Io.disk hclean
      exact (and_iff_right (by rintro ⟨_, _, h⟩; exact absurd h (by simp))).symm

theorem within_write_bind {site : Site} {lba : Nat} {buf : Sector} {f : Bool → Fs β} :
    (ataWriteSector site lba buf >>= f).Within P g kmalloc d ↔
      P site lba ∧ (f true).Within P g kmalloc (d.set lba buf) :=
  ((total_write site lba buf).within_bind (n := 0) rfl).trans
    (and_congr_left' (within_write site lba buf))

theorem Total.quiet (hx : x.Total)
    (h : ∀ g kmalloc F d n, ∃ p, x.run g kmalloc (fenced F d) n = .ret p) : x.Quiet := by
  refine ⟨hx.regular, ?_⟩
  rintro P g kmalloc d ⟨n, p, hpanic⟩
  obtain ⟨q, hq⟩ := h g kmalloc _ d n
  exact absurd (hpanic.symm.trans hq) (by simp)

theorem quiet_pure (a : α) : Quiet (pure a : Fs α) :=
  (total_pure a).quiet fun _ _ F d _ => ⟨(a, fenced F d), rfl⟩

theorem quiet_geometry : Quiet geometry :=
  total_geometry.quiet fun g _ F d _ => ⟨(g, fenced F d), rfl⟩

theorem quiet_read (site : Site) (lba : Nat) : Quiet (ataReadSector site lba) :=
  (total_read site lba).quiet fun _ _ F d _ => ⟨(some (d lba), fenced F d), rfl⟩

theorem Quiet.bind (hx : x.Quiet) (hf : ∀ a, (f a).Quiet) : Quiet (x >>= f) :=
  ⟨hx.regular.bind fun a => (hf a).regular, fun P g kmalloc _ =>
    (hx.within_bind fun a => (hf a).regular).2 fun a d' _ => (hf a).within P g kmalloc d'⟩

theorem quiet_ite {c : Prop} [Decidable c] {y : Fs α} (hx : x.Quiet) (hy : y.Quiet) :
    Quiet (if c then x else y) := by
  split
  · exact hx
  · exact hy

section Loop

variable {body : σ → Fs (σ ⊕ ρ)}

/-- A round yields what the body does. -/
theorem yields_round_iff {io : Io} {s s' : σ} {io' : Io} :
    Yields (fun n => round body ⟨g, n, kmalloc⟩ (s, io)) (.inl (s', io')) ↔
      Yields ((body s).run g kmalloc io) (.inl s', io') := by
  constructor
  · rintro ⟨n, hn⟩
    obtain ⟨⟨z, io₁⟩, hbody, hz⟩ := Exec.bind_eq_ret.1 hn
    cases z with
    | inl s₁ =>
        obtain ⟨rfl, rfl⟩ := Prod.mk.inj (Sum.inl.inj (Exec.ret.inj hz))
        exact ⟨n, hbody⟩
    | inr r => exact absurd hz (by simp)
  · exact fun h => yields_round h

theorem panics_round_iff {io : Io} {s : σ} :
    Panics (fun n => round body ⟨g, n, kmalloc⟩ (s, io)) ↔ Panics ((body s).run g kmalloc io) := by
  constructor
  · rintro ⟨n, p, hn⟩
    rcases Exec.bind_eq_panic.1 hn with hbody | ⟨⟨z, io₁⟩, -, hz⟩
    · exact ⟨n, p, hbody⟩
    · cases z with
      | inl s => exact absurd hz (by simp)
      | inr r => exact absurd hz (by simp)
  · rintro ⟨n, p, hn⟩
    exact ⟨n, p, Exec.bind_eq_panic.2 (Or.inl hn)⟩

/-- **Loops** stay inside the fence when the first round does and the loop from its result
on. -/
theorem within_loop (h : ∀ s, (body s).Regular) (s : σ) :
    (Fs.loop body s).Within P g kmalloc d ↔ (body s).Within P g kmalloc d ∧
      ∀ s' d', Yields ((body s).run g kmalloc (clean d)) (.inl s', clean d') →
        (Fs.loop body s').Within P g kmalloc d' := by
  unfold Within
  rw [show Panics ((Fs.loop body s).run g kmalloc _) ↔ _ from
    Exec.panics_loop (mono_round h g kmalloc), panics_round_iff, not_or]
  refine and_congr_right fun hwithin => ?_
  constructor
  · intro hall s' d' hyields hpanics
    have hround := (h s).yields_of_not_panics hwithin hyields
    exact hall ⟨_, yields_round_iff.2 hround, hpanics⟩
  · rintro hall ⟨⟨s', io'⟩, hround, hpanics⟩
    obtain ⟨z, d', hz, hyields⟩ := (h s).yields_fenced (yields_round_iff.1 hround)
    obtain ⟨rfl, rfl⟩ := Prod.mk.inj hz
    exact hall s' d' hyields hpanics

theorem quiet_loop (h : ∀ s, (body s).Quiet) (s : σ) : Quiet (Fs.loop body s) := by
  refine ⟨regular_loop (fun s => (h s).regular) s, ?_⟩
  rintro P g kmalloc d ⟨n, p, hpanic⟩
  -- no round of the loop is stopped
  have hrounds : ∀ k s d, Exec.loop (round body ⟨g, n, kmalloc⟩) k
      (s, fenced (fun site lba => @decide (P site lba) (Classical.propDecidable _)) d) ≠
        .panic p := by
    intro k
    induction k with
    | zero => exact fun _ _ => by simp [Exec.loop]
    | succ k ih =>
        intro s d hk
        rw [Exec.loop] at hk
        generalize hround : round body ⟨g, n, kmalloc⟩ (s, _) = z at hk
        cases z with
        | panic q => exact (h s).within P g kmalloc d (panics_round_iff.1 ⟨n, q, hround⟩)
        | spin => exact absurd hk (by simp)
        | ret z =>
            cases z with
            | inr r => exact absurd hk (by simp)
            | inl q =>
                obtain ⟨z, d', hz, -⟩ :=
                  (h s).regular.yields_fenced (yields_round_iff.1 ⟨n, hround⟩)
                obtain ⟨rfl, hio⟩ := Prod.mk.inj hz
                rw [show q = (q.1, q.2) from rfl, hio] at hk
                exact ih q.1 d' hk
  exact hrounds n s d hpanic

end Loop

end Fs

/-! ## Calls without unbounded loops -/

open Fs

theorem total_readFatEntry (site : Site) (cluster : Nat) : (readFatEntry site cluster).Total := by
  refine total_geometry.bind fun g => (total_read _ _).bind fun buffer => ?_
  cases buffer with
  | none => exact total_pure _
  | some buffer => exact total_pure _

theorem total_mirrorFat (sectorOffset : Nat) (buffer : Sector) (n i : Nat) :
    (mirrorFat sectorOffset buffer n i).Total := by
  induction n generalizing i with
  | zero => exact total_pure _
  | succ n ih =>
      refine total_geometry.bind fun g => (total_write _ _ _).bind fun ok => ?_
      exact total_ite (ih (i + 1)) (total_pure _)

theorem total_writeFatEntry (cluster value : Nat) : (writeFatEntry cluster value).Total := by
  refine total_geometry.bind fun g => (total_read _ _).bind fun buffer => ?_
  cases buffer with
  | none => exact total_pure _
  | some buffer => exact total_mirrorFat _ _ _ _

theorem total_allocFrom (n s : Nat) : (allocFrom n s).Total := by
  induction n generalizing s with
  | zero => exact total_pure _
  | succ n ih =>
      refine total_geometry.bind fun g => (total_read _ _).bind fun buffer => ?_
      cases buffer with
      | none => exact total_pure _
      | some buffer =>
          simp only
          match scanTable g.totalClusters buffer s 256 0 with
          | none => exact ih (s + 1)
          | some 0 => exact total_pure _
          | some (cluster + 1) => exact (total_writeFatEntry _ _).bind fun _ => total_pure _

theorem total_allocCluster : allocCluster.Total :=
  total_geometry.bind fun _ => total_allocFrom _ _

theorem total_freeFrom (n curr : Nat) : (freeFrom n curr).Total := by
  induction n generalizing curr with
  | zero => exact total_pure _
  | succ n ih =>
      refine total_ite ?_ (total_pure _)
      refine (total_readFatEntry _ _).bind fun next => ?_
      exact (total_writeFatEntry _ _).bind fun _ => ih next

theorem total_freeChain (startCluster : Nat) : (freeChain startCluster).Total :=
  total_geometry.bind fun _ => total_ite (total_pure _) (total_freeFrom _ _)

theorem total_writeRecords (records : List Record) (currentSec : Nat) (secBuf : Sector)
    (slot : Nat) : (writeRecords records currentSec secBuf slot).Total := by
  induction records generalizing currentSec secBuf slot with
  | nil => exact (total_write _ _ _).bind fun _ => total_ite (total_pure _) (total_pure _)
  | cons record records ih =>
      refine total_ite ?_ (ih _ _ _)
      refine (total_write _ _ _).bind fun _ => total_ite ?_ (total_pure _)
      refine (total_read _ _).bind fun buffer => ?_
      cases buffer with
      | none => exact total_pure _
      | some buffer => exact ih _ _ _

theorem total_updateDir (found : Found) (entry : Record) : (updateDir found entry).Total := by
  refine (total_read _ _).bind fun buffer => ?_
  cases buffer with
  | none => exact total_pure _
  | some buffer => exact (total_write _ _ _).bind fun _ => total_ite (total_pure _) (total_pure _)

theorem total_markDeleted (found : Found) : (markDeleted found).Total := by
  refine (total_read _ _).bind fun buffer => ?_
  cases buffer with
  | none => exact total_pure _
  | some buffer => exact (total_write _ _ _).bind fun _ => total_ite (total_pure _) (total_pure _)

theorem total_visitSectors {κ : Type} (site : Site) (callback : Visitor κ) (n sec : Nat)
    (context : κ) : (visitSectors site callback n sec context).Total := by
  induction n generalizing sec context with
  | zero => exact total_pure _
  | succ n ih =>
      refine (total_read _ _).bind fun buffer => ?_
      cases buffer with
      | none => exact total_pure _
      | some buffer =>
          simp only
          match visitRecords callback sec buffer 16 0 context with
          | (some status, context) => exact total_pure _
          | (none, context) => exact ih _ _

theorem total_loadSectors (n lba : Nat) (st : LoadState) : (loadSectors n lba st).Total := by
  induction n generalizing lba st with
  | zero => exact total_pure _
  | succ n ih =>
      refine total_ite ?_ (total_pure _)
      refine (total_read _ _).bind fun buffer => ?_
      cases buffer with
      | none => exact total_pure _
      | some buffer => exact ih _ _

theorem total_writeSectors (data : List UInt8) (n lba secOffset bytesWritten : Nat) :
    (writeSectors data n lba secOffset bytesWritten).Total := by
  induction n generalizing lba secOffset bytesWritten with
  | zero => exact total_pure _
  | succ n ih =>
      refine total_ite ?_ (total_pure _)
      refine Total.bind (total_ite (total_read _ _) (total_pure _)) fun buffer => ?_
      cases buffer with
      | none => exact total_pure _
      | some buffer =>
          exact (total_write _ _ _).bind fun _ => total_ite (ih _ _ _) (total_pure _)

theorem total_nextCluster (inClusterOffset : Nat) (st : WriteState) :
    (nextCluster inClusterOffset st).Total := by
  refine total_ite ?_ (total_pure _)
  refine total_allocCluster.bind fun newC => total_ite (total_pure _) ?_
  refine (total_when ?_).bind fun _ => total_pure _
  exact (total_writeFatEntry _ _).bind fun _ => total_pure _

end Fat16

end BenmoshOS
