import BenmoshOS.Lib.Exec

/-!
# Calls with fuel

A model of C code with unbounded loops takes a bound on their rounds, its fuel.  Whether the
code comes to an end is then a question about all amounts of fuel at once: a call is a
function `Nat → Exec α`, and it halts when some amount lets it return.

* `Mono x` — more fuel changes nothing but an unfinished run of `x`.
* `Yields x a`, `Halts x` — with enough fuel `x` returns `a`, or returns at all.
* `Panics x` — with some amount of fuel `x` gets as far as a panic.
* `yields_bind`, `yields_loop` — what a sequence and a loop yield, given what their parts do;
  `panics_bind`, `panics_loop` — when they panic.
* `halts_loop_orbit` — **loops without an end**: a loop that runs through a given sequence of
  states halts exactly when the sequence has a state at which the body leaves.
* `halts_loop_measure` — a loop whose rounds make a number smaller halts.
* `Passes body s ss r` — the loop starts its rounds in the states `ss` and leaves with `r`.
-/

namespace BenmoshOS.Exec

variable {α β σ ρ : Type} {x : Nat → Exec α} {a b : α} {p : Panic} {m n : Nat}

/-- More fuel changes nothing but an unfinished run. -/
def Mono (x : Nat → Exec α) : Prop := ∀ m n, m ≤ n → x m = spin ∨ x n = x m

/-- With enough fuel the call returns `a`. -/
def Yields (x : Nat → Exec α) (a : α) : Prop := ∃ n, x n = ret a

/-- With enough fuel the call returns. -/
def Halts (x : Nat → Exec α) : Prop := ∃ a, Yields x a

/-- With enough fuel the call panics. -/
def Panics (x : Nat → Exec α) : Prop := ∃ n p, x n = panic p

theorem Yields.halts (h : Yields x a) : Halts x := ⟨a, h⟩

theorem Mono.ret (hx : Mono x) (hle : m ≤ n) (h : x m = ret a) : x n = ret a := by
  rcases hx m n hle with hspin | heq
  · exact absurd (h.symm.trans hspin) (by simp)
  · exact heq.trans h

theorem Mono.panic (hx : Mono x) (hle : m ≤ n) (h : x m = panic p) : x n = panic p := by
  rcases hx m n hle with hspin | heq
  · exact absurd (h.symm.trans hspin) (by simp)
  · exact heq.trans h

theorem Yields.unique (hx : Mono x) (ha : Yields x a) (hb : Yields x b) : a = b := by
  obtain ⟨m, hm⟩ := ha
  obtain ⟨n, hn⟩ := hb
  have hm' := hx.ret (le_max_left m n) hm
  have hn' := hx.ret (le_max_right m n) hn
  exact ret.inj (hm'.symm.trans hn')

theorem mono_const (x : Exec α) : Mono fun _ => x := fun _ _ _ => Or.inr rfl

@[simp] theorem yields_ret : Yields (fun _ => ret a) b ↔ a = b :=
  ⟨fun ⟨_, h⟩ => ret.inj h, fun h => ⟨0, congrArg ret h⟩⟩

/-! ## Sequences -/

theorem Mono.bind {f : α → Nat → Exec β} (hx : Mono x) (hf : ∀ a, Mono (f a)) :
    Mono fun n => x n >>= fun a => f a n := by
  intro m n hle
  rcases hx m n hle with hspin | heq
  · refine Or.inl ?_
    show (x m >>= fun a => f a m) = spin
    rw [hspin, spin_bind]
  · show (x m >>= fun a => f a m) = spin ∨ (x n >>= fun a => f a n) = x m >>= fun a => f a m
    rw [heq]
    cases x m with
    | ret a => exact hf a m n hle
    | panic p => exact Or.inr rfl
    | spin => exact Or.inl rfl

theorem yields_bind {f : α → Nat → Exec β} {b : β} (hx : Mono x) (hf : ∀ a, Mono (f a)) :
    Yields (fun n => x n >>= fun a => f a n) b ↔ ∃ a, Yields x a ∧ Yields (f a) b := by
  constructor
  · rintro ⟨n, h⟩
    obtain ⟨a, ha, hb⟩ := bind_eq_ret.1 h
    exact ⟨a, ⟨n, ha⟩, n, hb⟩
  · rintro ⟨a, ⟨m, hm⟩, n, hn⟩
    refine ⟨max m n, bind_eq_ret.2 ⟨a, ?_, ?_⟩⟩
    · exact hx.ret (le_max_left m n) hm
    · exact (hf a).ret (le_max_right m n) hn

/-- A sequence panics in its first half, or in its second half on what the first yields. -/
theorem panics_bind {f : α → Nat → Exec β} (hx : Mono x) (hf : ∀ a, Mono (f a)) :
    Panics (fun n => x n >>= fun a => f a n) ↔ Panics x ∨ ∃ a, Yields x a ∧ Panics (f a) := by
  constructor
  · rintro ⟨n, p, h⟩
    rcases bind_eq_panic.1 h with hx | ⟨a, ha, hf⟩
    · exact Or.inl ⟨n, p, hx⟩
    · exact Or.inr ⟨a, ⟨n, ha⟩, n, p, hf⟩
  · rintro (⟨n, p, h⟩ | ⟨a, ⟨m, hm⟩, n, p, hn⟩)
    · exact ⟨n, p, bind_eq_panic.2 (Or.inl h)⟩
    · refine ⟨max m n, p, bind_eq_panic.2 (Or.inr ⟨a, ?_, ?_⟩)⟩
      · exact hx.ret (le_max_left m n) hm
      · exact (hf a).panic (le_max_right m n) hn

/-! ## Loops -/

variable {body : Nat → σ → Exec (σ ⊕ ρ)} {s s' : σ} {r : ρ}

/-- More fuel for the body and more rounds. -/
theorem loop_mono_body (hbody : ∀ s, Mono fun n => body n s) (hmn : m ≤ n) :
    ∀ k l s, k ≤ l → loop (body m) k s = spin ∨ loop (body n) l s = loop (body m) k s := by
  intro k
  induction k with
  | zero => exact fun _ _ _ => Or.inl rfl
  | succ k ih =>
      intro l s hkl
      obtain ⟨l, rfl⟩ : ∃ j, l = j + 1 := ⟨l - 1, by omega⟩
      rw [loop, loop]
      rcases hbody s m n hmn with hspin | heq
      · have hspin : body m s = spin := hspin
        rw [hspin]
        exact Or.inl rfl
      · have heq : body n s = body m s := heq
        rw [heq]
        cases body m s with
        | panic p => exact Or.inr rfl
        | spin => exact Or.inl rfl
        | ret y =>
            cases y with
            | inl s' => exact ih l s' (by omega)
            | inr r' => exact Or.inr rfl

theorem Mono.loop (hbody : ∀ s, Mono fun n => body n s) (s : σ) :
    Mono fun n => loop (body n) n s :=
  fun m n hmn => loop_mono_body hbody hmn m n s hmn

/-- What a loop yields: its body leaves, or goes round once more. -/
theorem yields_loop (hbody : ∀ s, Mono fun n => body n s) :
    Yields (fun n => loop (body n) n s) r ↔ Yields (fun n => body n s) (.inr r) ∨
      ∃ s', Yields (fun n => body n s) (.inl s') ∧ Yields (fun n => loop (body n) n s') r := by
  constructor
  · rintro ⟨n, h⟩
    cases n with
    | zero => exact absurd h (by simp [Exec.loop])
    | succ n =>
        simp only [Exec.loop] at h
        cases hb : body (n + 1) s with
        | panic p => simp [hb] at h
        | spin => simp [hb] at h
        | ret y =>
            rw [hb] at h
            cases y with
            | inl s' =>
                exact Or.inr ⟨s', ⟨n + 1, hb⟩, n + 1, loop_mono h (Nat.le_succ n)⟩
            | inr r' =>
                obtain rfl : r' = r := ret.inj h
                exact Or.inl ⟨n + 1, hb⟩
  · rintro (⟨n, h⟩ | ⟨s', ⟨m, hm⟩, n, hn⟩)
    · exact ⟨n + 1, loop_leave ((hbody s).ret (Nat.le_succ n) h)⟩
    · refine ⟨max m n + 1, ?_⟩
      have hb := (hbody s).ret (by omega : m ≤ max m n + 1) hm
      rcases loop_mono_body hbody (by omega : n ≤ max m n + 1) n (max m n) s'
        (le_max_right m n) with hspin | hrest
      · exact absurd (hn.symm.trans hspin) (by simp)
      · exact (loop_again hb).trans (hrest.trans hn)

/-- A loop panics in its first round, or after a round that goes on. -/
theorem panics_loop (hbody : ∀ s, Mono fun n => body n s) :
    Panics (fun n => loop (body n) n s) ↔ Panics (fun n => body n s) ∨
      ∃ s', Yields (fun n => body n s) (.inl s') ∧ Panics fun n => loop (body n) n s' := by
  constructor
  · rintro ⟨n, p, h⟩
    cases n with
    | zero => exact absurd h (by simp [Exec.loop])
    | succ n =>
        simp only [Exec.loop] at h
        cases hb : body (n + 1) s with
        | panic q => exact Or.inl ⟨n + 1, q, hb⟩
        | spin => simp [hb] at h
        | ret y =>
            rw [hb] at h
            cases y with
            | inr r => exact absurd h (by simp)
            | inl s' =>
                have hmore := loop_of_le (body (n + 1)) s' (Nat.le_succ n)
                refine Or.inr ⟨s', ⟨n + 1, hb⟩, n + 1, p, ?_⟩
                rcases hmore with hspin | heq
                · exact absurd (h.symm.trans hspin) (by simp)
                · exact heq.trans h
  · rintro (⟨n, p, h⟩ | ⟨s', ⟨m, hm⟩, n, p, hn⟩)
    · refine ⟨n + 1, p, ?_⟩
      have hb := (hbody s).panic (Nat.le_succ n) h
      simp only [Exec.loop, hb]
    · refine ⟨max m n + 1, p, ?_⟩
      have hb := (hbody s).ret (by omega : m ≤ max m n + 1) hm
      rcases loop_mono_body hbody (by omega : n ≤ max m n + 1) n (max m n) s'
        (le_max_right m n) with hspin | hrest
      · exact absurd (hn.symm.trans hspin) (by simp)
      · exact (loop_again hb).trans (hrest.trans hn)

/-- A round that goes on does not decide whether the loop halts. -/
theorem halts_loop_again (hbody : ∀ s, Mono fun n => body n s)
    (h : Yields (fun n => body n s) (.inl s')) :
    Halts (fun n => loop (body n) n s) ↔ Halts fun n => loop (body n) n s' := by
  constructor
  · rintro ⟨r, hr⟩
    rcases (yields_loop hbody).1 hr with hleave | ⟨s'', hs'', hr⟩
    · exact absurd (hleave.unique (hbody s) h) (by simp)
    · rw [Sum.inl.inj (h.unique (hbody s) hs'')]
      exact hr.halts
  · rintro ⟨r, hr⟩
    exact ⟨r, (yields_loop hbody).2 (Or.inr ⟨s', h, hr⟩)⟩

/-- **Loops without an end.**  The loop runs through the states `orbit 0`, `orbit 1`, … as
long as they are in `p`; it halts exactly when one of them is not. -/
theorem halts_loop_orbit (hbody : ∀ s, Mono fun n => body n s) {p : Nat → Prop}
    (orbit : Nat → σ)
    (hgo : ∀ k, p k → Yields (fun n => body n (orbit k)) (.inl (orbit (k + 1))))
    (hleave : ∀ k, ¬ p k → ∃ r, Yields (fun n => body n (orbit k)) (.inr r)) :
    Halts (fun n => loop (body n) n (orbit 0)) ↔ ∃ k, ¬ p k := by
  constructor
  · rintro ⟨r, n, hn⟩
    by_contra hall
    push Not at hall
    -- as long as the states go on the loop uses up its fuel
    have hspin : ∀ j k, loop (body n) j (orbit k) ≠ ret r := by
      intro j
      induction j with
      | zero =>
          intro k h
          exact absurd h (by simp [loop])
      | succ j ih =>
          intro k h
          obtain ⟨m, hm⟩ := hgo k (hall k)
          rw [loop] at h
          cases hb : body n (orbit k) with
          | panic q => simp [hb] at h
          | spin => simp [hb] at h
          | ret y =>
              have hy := Yields.unique (hbody (orbit k)) ⟨n, hb⟩ ⟨m, hm⟩
              rw [hb, hy] at h
              exact ih (k + 1) h
    exact hspin n 0 hn
  · rintro ⟨k, hk⟩
    induction k generalizing orbit p with
    | zero =>
        obtain ⟨r, hr⟩ := hleave 0 hk
        exact ⟨r, (yields_loop hbody).2 (Or.inl hr)⟩
    | succ k ih =>
        by_cases h₀ : p 0
        · rw [halts_loop_again hbody (hgo 0 h₀)]
          exact ih (p := fun j => p (j + 1)) (fun j => orbit (j + 1)) (fun j => hgo (j + 1))
            (fun j => hleave (j + 1)) hk
        · obtain ⟨r, hr⟩ := hleave 0 h₀
          exact ⟨r, (yields_loop hbody).2 (Or.inl hr)⟩

/-- A loop halts when every round leaves it or makes a number smaller. -/
theorem halts_loop_measure (hbody : ∀ s, Mono fun n => body n s) (I : σ → Prop) (μ : σ → Nat)
    (hround : ∀ s, I s → ∃ y, Yields (fun n => body n s) y ∧
      Sum.elim (fun s' => I s' ∧ μ s' < μ s) (fun _ => True) y) (s : σ) (hs : I s) :
    Halts fun n => loop (body n) n s := by
  induction hμ : μ s using Nat.strong_induction_on generalizing s with
  | _ j ih =>
      obtain ⟨y, hy, hless⟩ := hround s hs
      cases y with
      | inl s' =>
          rw [halts_loop_again hbody hy]
          exact ih (μ s') (hμ ▸ hless.2) s' hless.1 rfl
      | inr r => exact ⟨r, (yields_loop hbody).2 (Or.inl hy)⟩

/-! ## The rounds of a loop -/

/-- The loop that starts in `s` runs its body in the states `ss`, in this order, and leaves
with `r`. -/
inductive Passes (body : Nat → σ → Exec (σ ⊕ ρ)) : σ → List σ → ρ → Prop
  | leave {s : σ} {r : ρ} (h : Yields (fun n => body n s) (.inr r)) : Passes body s [s] r
  | again {s s' : σ} {ss : List σ} {r : ρ} (h : Yields (fun n => body n s) (.inl s'))
      (hrest : Passes body s' ss r) : Passes body s (s :: ss) r

theorem Passes.yields (hbody : ∀ s, Mono fun n => body n s) {ss : List σ}
    (h : Passes body s ss r) : Yields (fun n => loop (body n) n s) r := by
  induction h with
  | leave h => exact (yields_loop hbody).2 (Or.inl h)
  | again h _ ih => exact (yields_loop hbody).2 (Or.inr ⟨_, h, ih⟩)

/-- A loop has one sequence of rounds. -/
theorem Passes.unique (hbody : ∀ s, Mono fun n => body n s) {ss ss' : List σ} {r r' : ρ}
    (h : Passes body s ss r) (h' : Passes body s ss' r') : ss = ss' ∧ r = r' := by
  induction h generalizing ss' r' with
  | leave h =>
      cases h' with
      | leave h' => exact ⟨rfl, Sum.inr.inj (h.unique (hbody _) h')⟩
      | again h' _ => exact absurd (h.unique (hbody _) h') (by simp)
  | again h hrest ih =>
      cases h' with
      | leave h' => exact absurd (h.unique (hbody _) h') (by simp)
      | again h' hrest' =>
          obtain rfl := Sum.inl.inj (h.unique (hbody _) h')
          obtain ⟨rfl, rfl⟩ := ih hrest'
          exact ⟨rfl, rfl⟩

end BenmoshOS.Exec
