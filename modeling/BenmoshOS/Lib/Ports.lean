import Mathlib.Tactic

/-!
# Programs that talk to I/O ports

A device driver sees its device through the values it reads from ports, and acts on it through
the values it writes.  Such a program is a tree of port accesses; run on a device it returns a
value and leaves a trace.

* `Ports α` — a program that returns an `α`; a monad.
* `Device σ` — a device with states `σ`: how it answers a read and what a write does to it.
* `Ports.run`, `Ports.trace` — what a program returns on a device, the state it leaves the device
  in, and the accesses it makes.
* `Ports.poll`, `Ports.forUpTo` — the two loops of drivers: reading a port until its value decides,
  and a counted loop.  `run_poll`, `trace_poll`, `run_forUpTo` and `trace_forUpTo` are their
  rules.
-/

namespace BenmoshOS

/-- An access to a port. -/
inductive Access where
  | inb (port : UInt16)
  | inw (port : UInt16)
  | outb (port : UInt16) (value : UInt8)
  | outw (port : UInt16) (value : UInt16)
  deriving DecidableEq, Repr

/-- A device behind I/O ports.  Reading a port may change the device. -/
structure Device (σ : Type) where
  inb : UInt16 → σ → UInt8 × σ
  inw : UInt16 → σ → UInt16 × σ
  outb : UInt16 → UInt8 → σ → σ
  outw : UInt16 → UInt16 → σ → σ

/-- A program that accesses ports. -/
inductive Ports (α : Type) where
  | ret (a : α)
  | readByte (port : UInt16) (next : UInt8 → Ports α)
  | readWord (port : UInt16) (next : UInt16 → Ports α)
  | writeByte (port : UInt16) (value : UInt8) (next : Ports α)
  | writeWord (port : UInt16) (value : UInt16) (next : Ports α)

namespace Ports

variable {α β σ : Type}

/-- Sequencing. -/
def bind (p : Ports α) (f : α → Ports β) : Ports β :=
  match p with
  | ret a => f a
  | readByte port next => readByte port fun v => (next v).bind f
  | readWord port next => readWord port fun v => (next v).bind f
  | writeByte port value next => writeByte port value (next.bind f)
  | writeWord port value next => writeWord port value (next.bind f)

instance : Monad Ports where
  pure := ret
  bind := bind

/-- Read a byte from a port. -/
def inb (port : UInt16) : Ports UInt8 := readByte port ret

/-- Read a word from a port. -/
def inw (port : UInt16) : Ports UInt16 := readWord port ret

/-- Write a byte to a port. -/
def outb (port : UInt16) (value : UInt8) : Ports Unit := writeByte port value (ret ())

/-- Write a word to a port. -/
def outw (port : UInt16) (value : UInt16) : Ports Unit := writeWord port value (ret ())

/-- What a program returns on a device, and the state it leaves the device in. -/
def run (dev : Device σ) : Ports α → σ → α × σ
  | ret a, s => (a, s)
  | readByte port next, s => run dev (next (dev.inb port s).1) (dev.inb port s).2
  | readWord port next, s => run dev (next (dev.inw port s).1) (dev.inw port s).2
  | writeByte port value next, s => run dev next (dev.outb port value s)
  | writeWord port value next, s => run dev next (dev.outw port value s)

/-- The accesses a program makes on a device. -/
def trace (dev : Device σ) : Ports α → σ → List Access
  | ret _, _ => []
  | readByte port next, s => .inb port :: trace dev (next (dev.inb port s).1) (dev.inb port s).2
  | readWord port next, s => .inw port :: trace dev (next (dev.inw port s).1) (dev.inw port s).2
  | writeByte port value next, s => .outb port value :: trace dev next (dev.outb port value s)
  | writeWord port value next, s => .outw port value :: trace dev next (dev.outw port value s)

variable {dev : Device σ} {s : σ}

@[simp] theorem run_pure (a : α) : (pure a : Ports α).run dev s = (a, s) := rfl

@[simp] theorem run_inb (port : UInt16) : (inb port).run dev s = dev.inb port s := rfl

@[simp] theorem run_inw (port : UInt16) : (inw port).run dev s = dev.inw port s := rfl

@[simp] theorem run_outb (port : UInt16) (value : UInt8) :
    (outb port value).run dev s = ((), dev.outb port value s) := rfl

@[simp] theorem run_outw (port : UInt16) (value : UInt16) :
    (outw port value).run dev s = ((), dev.outw port value s) := rfl

@[simp] theorem trace_pure (a : α) : (pure a : Ports α).trace dev s = [] := rfl

@[simp] theorem trace_inb (port : UInt16) : (inb port).trace dev s = [.inb port] := rfl

@[simp] theorem trace_inw (port : UInt16) : (inw port).trace dev s = [.inw port] := rfl

@[simp] theorem trace_outb (port : UInt16) (value : UInt8) :
    (outb port value).trace dev s = [.outb port value] := rfl

@[simp] theorem trace_outw (port : UInt16) (value : UInt16) :
    (outw port value).trace dev s = [.outw port value] := rfl

/-- A sequence runs its second half where the first has left the device. -/
@[simp] theorem run_bind (p : Ports α) (f : α → Ports β) (s : σ) :
    (p >>= f).run dev s = (f (p.run dev s).1).run dev (p.run dev s).2 := by
  induction p generalizing s with
  | ret a => rfl
  | readByte port next ih => exact ih _ _
  | readWord port next ih => exact ih _ _
  | writeByte port value next ih => exact ih _
  | writeWord port value next ih => exact ih _

/-- The accesses of a sequence are those of its halves, one after the other. -/
@[simp] theorem trace_bind (p : Ports α) (f : α → Ports β) (s : σ) :
    (p >>= f).trace dev s =
      p.trace dev s ++ (f (p.run dev s).1).trace dev (p.run dev s).2 := by
  induction p generalizing s with
  | ret a => rfl
  | readByte port next ih => exact congrArg (_ :: ·) (ih _ _)
  | readWord port next ih => exact congrArg (_ :: ·) (ih _ _)
  | writeByte port value next ih => exact congrArg (_ :: ·) (ih _)
  | writeWord port value next ih => exact congrArg (_ :: ·) (ih _)

/-! ## Polling -/

/-- Read `port` until `verdict` decides about the value read, at most `n` times.  When the
patience is over, the answer is no. -/
def poll (port : UInt16) (verdict : UInt8 → Option Bool) : Nat → Ports Bool
  | 0 => pure false
  | n + 1 => do
      let value ← inb port
      (verdict value).elim (poll port verdict n) pure

variable {port : UInt16} {verdict : UInt8 → Option Bool} {n : Nat}

theorem poll_undecided (h : verdict (dev.inb port s).1 = none) :
    (poll port verdict (n + 1)).run dev s = (poll port verdict n).run dev (dev.inb port s).2 := by
  rw [poll, run_bind, run_inb, h]
  rfl

theorem poll_decided {b : Bool} (h : verdict (dev.inb port s).1 = some b) :
    (poll port verdict (n + 1)).run dev s = (b, (dev.inb port s).2) := by
  rw [poll, run_bind, run_inb, h]
  rfl

/-- A poll on a device that goes through the states `states` and is decided in the `k`-th. -/
theorem run_poll {b : Bool} {k : Nat} (states : Nat → σ)
    (hnext : ∀ i ≤ k, (dev.inb port (states i)).2 = states (i + 1))
    (hwait : ∀ i < k, verdict (dev.inb port (states i)).1 = none)
    (hdecided : verdict (dev.inb port (states k)).1 = some b) (hn : k < n) :
    (poll port verdict n).run dev (states 0) = (b, states (k + 1)) := by
  induction k generalizing n states with
  | zero =>
      obtain ⟨n, rfl⟩ := Nat.exists_eq_add_one_of_ne_zero (Nat.ne_zero_of_lt hn)
      rw [poll_decided hdecided, hnext 0 le_rfl]
  | succ k ih =>
      obtain ⟨n, rfl⟩ := Nat.exists_eq_add_one_of_ne_zero (Nat.ne_zero_of_lt hn)
      rw [poll_undecided (hwait 0 (Nat.succ_pos k)), hnext 0 (Nat.zero_le _)]
      exact ih (fun i => states (i + 1)) (fun i hi => hnext (i + 1) (Nat.succ_le_succ hi))
        (fun i hi => hwait (i + 1) (Nat.succ_lt_succ hi)) hdecided (Nat.lt_of_succ_lt_succ hn)

/-- A poll on a device that stays undecided runs out of patience. -/
theorem run_poll_undecided (states : Nat → σ)
    (hnext : ∀ i < n, (dev.inb port (states i)).2 = states (i + 1))
    (hwait : ∀ i < n, verdict (dev.inb port (states i)).1 = none) :
    (poll port verdict n).run dev (states 0) = (false, states n) := by
  induction n generalizing states with
  | zero => rfl
  | succ n ih =>
      rw [poll_undecided (hwait 0 (Nat.succ_pos n)), hnext 0 (Nat.succ_pos n)]
      exact ih (fun i => states (i + 1)) (fun i hi => hnext (i + 1) (Nat.succ_lt_succ hi))
        fun i hi => hwait (i + 1) (Nat.succ_lt_succ hi)

/-- A poll on a device that is never seen in a state with verdict yes answers no.  `I` is an
invariant of the reads. -/
theorem run_poll_false (I : σ → Prop) (hI : ∀ s, I s → I (dev.inb port s).2)
    (hno : ∀ s, I s → verdict (dev.inb port s).1 ≠ some true) (n : Nat) {s : σ} (hs : I s) :
    ((poll port verdict n).run dev s).1 = false ∧ I ((poll port verdict n).run dev s).2 := by
  induction n generalizing s with
  | zero => exact ⟨rfl, hs⟩
  | succ n ih =>
      cases hv : verdict (dev.inb port s).1 with
      | none =>
          rw [poll_undecided hv]
          exact ih (hI s hs)
      | some b =>
          rw [poll_decided hv]
          cases b with
          | false => exact ⟨rfl, hI s hs⟩
          | true => exact absurd hv (hno s hs)

/-- A poll only reads its port, and at most as often as its patience allows. -/
theorem trace_poll (dev : Device σ) (port : UInt16) (verdict : UInt8 → Option Bool) (n : Nat)
    (s : σ) : ∃ k ≤ n, (poll port verdict n).trace dev s = List.replicate k (.inb port) := by
  induction n generalizing s with
  | zero => exact ⟨0, le_rfl, rfl⟩
  | succ n ih =>
      rw [poll, trace_bind, trace_inb, run_inb]
      cases verdict (dev.inb port s).1 with
      | none =>
          obtain ⟨k, hk, htrace⟩ := ih (dev.inb port s).2
          refine ⟨k + 1, Nat.succ_le_succ hk, ?_⟩
          exact congrArg (_ :: ·) htrace
      | some b => exact ⟨1, Nat.succ_le_succ (Nat.zero_le n), rfl⟩

/-! ## Counted loops -/

/-- `for (i = 0; i < n; i++)` -/
def forUpTo (round : Nat → β → Ports β) : Nat → β → Ports β
  | 0, b => pure b
  | n + 1, b => forUpTo round n b >>= round n

variable {round : Nat → β → Ports β}

/-- A counted loop whose value and device before round `i` are `P i`. -/
theorem run_forUpTo (P : Nat → β × σ)
    (h : ∀ i < n, (round i (P i).1).run dev (P i).2 = P (i + 1)) :
    (forUpTo round n (P 0).1).run dev (P 0).2 = P n := by
  induction n with
  | zero => rfl
  | succ n ih =>
      rw [forUpTo, run_bind, ih fun i hi => h i (Nat.lt_succ_of_lt hi)]
      exact h n (Nat.lt_succ_self n)

/-- A counted loop whose round `i` always makes the accesses `T i`. -/
theorem trace_forUpTo (T : Nat → List Access)
    (h : ∀ i < n, ∀ b s, (round i b).trace dev s = T i) (b : β) (s : σ) :
    (forUpTo round n b).trace dev s = (List.range n).flatMap T := by
  induction n with
  | zero => rfl
  | succ n ih =>
      rw [forUpTo, trace_bind, ih fun i hi => h i (Nat.lt_succ_of_lt hi),
        h n (Nat.lt_succ_self n), List.range_succ, List.flatMap_append]
      simp

end Ports

end BenmoshOS
