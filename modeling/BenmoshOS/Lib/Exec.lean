import Mathlib.Tactic

/-!
# Running C code: results, panics and loops

The kernel functions modelled in this project are straight-line C code with
three ways of not simply returning: they may call `kernel_panic`, they may loop
for ever, or they may leave a loop early.  This file provides the small amount
of machinery every model is written in.

* `Exec α` — what a call does: it returns a value (`ret`), it panics with a
  message (`panic`), or it is still running when the fuel of one of its loops
  is spent (`spin`).  `Exec` is a monad, so a model reads like its source.
* `loop` — a `while (1)` loop whose body either goes round again or leaves with
  a result.  The body may itself panic.
* `forUpTo` — a counted loop, and `forUpTo_eq`, its rule for states given in closed form.
* `Safe T x Q` — the call `x` does not panic, what it returns lies in `Q`, and
  under the condition `T` it does return; `safe_bind` and `safe_loop` are the
  rules for sequences and loops.
-/

namespace BenmoshOS

/-- Reduction of an unsigned 32-bit result. -/
def wrap32 (n : Nat) : Nat := n % 2 ^ 32

/-- The arguments of `kernel_panic`: the format string and the values it is
given. -/
structure Panic where
  message : String
  args : List Nat
  deriving DecidableEq, Repr

/-- What a call of a C function does. -/
inductive Exec (α : Type) where
  /-- The call returns. -/
  | ret (a : α)
  /-- The call ends in `kernel_panic`. -/
  | panic (p : Panic)
  /-- The call has not returned when the fuel of its loops is spent. -/
  | spin
  deriving Repr

namespace Exec

variable {α β σ ρ : Type}

/-- Sequencing: go on with the returned value, if there is one. -/
def bind (x : Exec α) (f : α → Exec β) : Exec β :=
  match x with
  | ret a => f a
  | panic p => panic p
  | spin => spin

instance : Monad Exec where
  pure := ret
  bind := bind

@[simp] theorem pure_eq (a : α) : (pure a : Exec α) = ret a := rfl

@[simp] theorem ret_bind (a : α) (f : α → Exec β) : (ret a >>= f) = f a := rfl

@[simp] theorem panic_bind (p : Panic) (f : α → Exec β) : (panic p >>= f) = panic p := rfl

@[simp] theorem spin_bind (f : α → Exec β) : (spin >>= f) = spin := rfl

/-- A sequence returns exactly when both of its halves do. -/
theorem bind_eq_ret {x : Exec α} {f : α → Exec β} {b : β} :
    (x >>= f) = ret b ↔ ∃ a, x = ret a ∧ f a = ret b := by
  cases x with
  | ret a => simp
  | panic p => simp
  | spin => simp

/-- A sequence panics when its first half does, or its second half does on the
value returned by the first. -/
theorem bind_eq_panic {x : Exec α} {f : α → Exec β} {p : Panic} :
    (x >>= f) = panic p ↔ x = panic p ∨ ∃ a, x = ret a ∧ f a = panic p := by
  cases x with
  | ret a => simp
  | panic q => simp
  | spin => simp

/-! ## Loops -/

/-- A loop: every round of `body` either goes on with a new loop state
(`Sum.inl`) or leaves with a result (`Sum.inr`).  The fuel bounds the number of
rounds. -/
def loop (body : σ → Exec (σ ⊕ ρ)) : Nat → σ → Exec ρ
  | 0, _ => spin
  | fuel + 1, s =>
      match body s with
      | ret (.inl s') => loop body fuel s'
      | ret (.inr r) => ret r
      | panic p => panic p
      | spin => spin

variable {body : σ → Exec (σ ⊕ ρ)} {s s' : σ} {r : ρ} {fuel : Nat}

theorem loop_again (h : body s = ret (.inl s')) :
    loop body (fuel + 1) s = loop body fuel s' := by
  rw [loop, h]

theorem loop_leave (h : body s = ret (.inr r)) : loop body (fuel + 1) s = ret r := by
  rw [loop, h]

/-- More fuel changes nothing but `spin`. -/
theorem loop_of_le (body : σ → Exec (σ ⊕ ρ)) (s : σ) {fuel' : Nat} (hle : fuel ≤ fuel') :
    loop body fuel s = spin ∨ loop body fuel' s = loop body fuel s := by
  induction fuel generalizing s fuel' with
  | zero => exact Or.inl rfl
  | succ fuel ih =>
      obtain ⟨k, rfl⟩ : ∃ k, fuel' = k + 1 := ⟨fuel' - 1, by omega⟩
      rw [loop, loop]
      cases body s with
      | panic p => exact Or.inr rfl
      | spin => exact Or.inl rfl
      | ret x =>
          cases x with
          | inl s' => exact ih s' (by omega)
          | inr r => exact Or.inr rfl

/-- More fuel never changes a result. -/
theorem loop_mono {fuel' : Nat} (h : loop body fuel s = ret r) (hle : fuel ≤ fuel') :
    loop body fuel' s = ret r := by
  rcases loop_of_le body s hle with hspin | heq
  · rw [h] at hspin
    simp at hspin
  · rw [heq, h]

/-- A loop panics only if one of its rounds does. -/
theorem loop_ne_panic {p : Panic} (h : ∀ s, body s ≠ panic p) (fuel : Nat) (s : σ) :
    loop body fuel s ≠ panic p := by
  induction fuel generalizing s with
  | zero => simp [loop]
  | succ fuel ih =>
      rw [loop]
      cases hb : body s with
      | ret x =>
          cases x with
          | inl s' => exact ih s'
          | inr r => simp
      | panic q =>
          rintro ⟨⟩
          exact h s hb
      | spin => simp

/-! ## Counted loops -/

/-- `for (i = 0; i < n; i++)` -/
def forUpTo (round : Nat → σ → Exec σ) : Nat → σ → Exec σ
  | 0, s => ret s
  | n + 1, s => forUpTo round n s >>= round n

/-- A counted loop whose state before round `i` is `P i`. -/
theorem forUpTo_eq {round : Nat → σ → Exec σ} (P : Nat → σ) {n : Nat}
    (h : ∀ i, i < n → round i (P i) = ret (P (i + 1))) :
    forUpTo round n (P 0) = ret (P n) := by
  induction n with
  | zero => rfl
  | succ n ih =>
      rw [forUpTo, ih fun i hi => h i (Nat.lt_succ_of_lt hi), ret_bind]
      exact h n (Nat.lt_succ_self n)

/-! ## Safety -/

/-- The call does not panic, a returned value lies in `Q`, and under the condition
`T`, which speaks about the fuel, the call does return. -/
def Safe (T : Prop) (x : Exec α) (Q : α → Prop) : Prop :=
  match x with
  | ret a => Q a
  | panic _ => False
  | spin => ¬ T

variable {T : Prop}

@[simp] theorem safe_ret {a : α} {Q : α → Prop} : Safe T (ret a) Q ↔ Q a := Iff.rfl

@[simp] theorem safe_spin {Q : α → Prop} : Safe T spin Q ↔ ¬ T := Iff.rfl

theorem Safe.ne_panic {x : Exec α} {Q : α → Prop} (h : Safe T x Q) (p : Panic) :
    x ≠ panic p := by
  rintro rfl
  exact h

theorem Safe.of_ret {x : Exec α} {Q : α → Prop} {a : α} (h : Safe T x Q) (hx : x = ret a) :
    Q a := by
  rw [hx] at h
  exact h

theorem Safe.returns {x : Exec α} {Q : α → Prop} (h : Safe T x Q) (hT : T) :
    ∃ a, x = ret a ∧ Q a := by
  cases x with
  | ret a => exact ⟨a, rfl, h⟩
  | panic p => exact absurd h id
  | spin => exact absurd hT h

theorem Safe.mono {x : Exec α} {T' : Prop} {P Q : α → Prop} (h : Safe T x P) (hT : T' → T)
    (hPQ : ∀ a, P a → Q a) : Safe T' x Q := by
  cases x with
  | ret a => exact hPQ a h
  | panic p => exact h
  | spin => exact fun hT' => h (hT hT')

theorem Safe.when {x : Exec α} {T' : Prop} {Q : α → Prop} (h : Safe T x Q) (hT : T' → T) :
    Safe T' x Q := h.mono hT fun _ hQ => hQ

/-- A safe call followed by a safe call is safe. -/
theorem safe_bind {x : Exec α} {f : α → Exec β} {P : α → Prop} {Q : β → Prop}
    (hx : Safe T x P) (hf : ∀ a, P a → Safe T (f a) Q) : Safe T (x >>= f) Q := by
  cases x with
  | ret a => exact hf a hx
  | panic p => exact hx
  | spin => exact hx

/-- **Correctness of a loop.**  `I j s` is the invariant, with `j` a bound on the
number of rounds that are left: the body leaves with a result in `Q` or goes on with
a smaller bound.  The loop then does not panic and its result lies in `Q`, and it
returns when its fuel exceeds the bound. -/
theorem safe_loop (I : Nat → σ → Prop) {Q : ρ → Prop}
    (hbody : ∀ j s, I j s → Safe T (body s) (fun x => Sum.elim (fun s' => ∃ i < j, I i s') Q x)) :
    ∀ fuel j s, I j s → (T → j < fuel) → Safe T (loop body fuel s) Q := by
  intro fuel
  induction fuel with
  | zero => exact fun j s _ hj hT => Nat.not_lt_zero j (hj hT)
  | succ fuel ih =>
      intro j s hI hj
      have hb := hbody j s hI
      rw [loop]
      cases hbs : body s with
      | panic p => rw [hbs] at hb; exact hb
      | spin => rw [hbs] at hb; exact hb
      | ret x =>
          rw [hbs] at hb
          cases x with
          | inl s' =>
              obtain ⟨i, hij, hI'⟩ := hb
              exact ih i s' hI' fun hT => by
                have := hj hT
                omega
          | inr r => exact hb

end Exec

end BenmoshOS
