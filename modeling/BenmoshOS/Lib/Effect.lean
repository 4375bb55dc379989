import BenmoshOS.Lib.Exec

/-!
# What a call does to one component of the state

A call with a state is a `StateT σ Exec`.  The two notions of this file are about a
component `f : σ → γ` of the state, for every state the call may be made in and every way
it may return: `Leaves f v x` says that the component is `v` afterwards, `Keeps f x` that it
is what it was.  The rules follow the shape of the code.
-/

namespace BenmoshOS.Exec

variable {σ α β γ : Type}

/-- A sequence returns through a state its first half returns in. -/
theorem run_bind_eq_ret {x : StateT σ Exec α} {g : α → StateT σ Exec β} {s s' : σ} {b : β} :
    (x >>= g) s = ret (b, s') ↔ ∃ a s₁, x s = ret (a, s₁) ∧ g a s₁ = ret (b, s') := by
  have hrun : (x >>= g) s = (x s >>= fun r => g r.1 r.2) := rfl
  rw [hrun, bind_eq_ret]
  constructor
  · rintro ⟨⟨a, s₁⟩, hx, hg⟩
    exact ⟨a, s₁, hx, hg⟩
  · rintro ⟨a, s₁, hx, hg⟩
    exact ⟨(a, s₁), hx, hg⟩

/-- However `x` returns, the component `f` is `v` then. -/
def Leaves (f : σ → γ) (v : γ) (x : StateT σ Exec α) : Prop :=
  ∀ s s' a, x s = ret (a, s') → f s' = v

/-- However `x` returns, the component `f` is what it was. -/
def Keeps (f : σ → γ) (x : StateT σ Exec α) : Prop :=
  ∀ s s' a, x s = ret (a, s') → f s' = f s

variable {f : σ → γ} {v : γ} {x : StateT σ Exec α} {g : α → StateT σ Exec β}

theorem leaves_bind (h : ∀ a, Leaves f v (g a)) : Leaves f v (x >>= g) := by
  intro s s' b hret
  obtain ⟨a, s₁, -, hg⟩ := run_bind_eq_ret.1 hret
  exact h a s₁ s' b hg

theorem leaves_ite {c : Prop} [Decidable c] {y : StateT σ Exec α} (hx : Leaves f v x)
    (hy : Leaves f v y) : Leaves f v (if c then x else y) := by
  split
  · exact hx
  · exact hy

/-- What follows a statement that sets the component may do anything that keeps it. -/
theorem Leaves.then_keeps (hx : Leaves f v x) (h : ∀ a, Keeps f (g a)) : Leaves f v (x >>= g) := by
  intro s s' b hret
  obtain ⟨a, s₁, hret₁, hg⟩ := run_bind_eq_ret.1 hret
  rw [h a s₁ s' b hg, hx s s₁ a hret₁]

theorem keeps_pure (a : α) : Keeps f (pure a : StateT σ Exec α) := by
  intro s s' b hret
  have hs : ret (a, s) = ret (b, s') := hret
  rw [(Prod.mk.inj (ret.inj hs)).2]

theorem Keeps.bind (hx : Keeps f x) (hg : ∀ a, Keeps f (g a)) : Keeps f (x >>= g) := by
  intro s s' b hret
  obtain ⟨a, s₁, hret₁, hg₁⟩ := run_bind_eq_ret.1 hret
  rw [hg a s₁ s' b hg₁, hx s s₁ a hret₁]

theorem keeps_ite {c : Prop} [Decidable c] {y : StateT σ Exec α} (hx : Keeps f x)
    (hy : Keeps f y) : Keeps f (if c then x else y) := by
  split
  · exact hx
  · exact hy

end BenmoshOS.Exec
