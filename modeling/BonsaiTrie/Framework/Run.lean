import Mathlib.Tactic

/-!
# Running stateful code

The equations of `EStateM`, by which code that ends with a result or an error
is run from a given state. `simp` runs a program with them as soon as it knows
the outcome of the calls in it.
-/

namespace Run

variable {ε σ α β : Type}

@[simp] theorem pure_run (a : α) (s : σ) : (pure a : EStateM ε σ α) s = .ok a s := rfl

@[simp] theorem throw_run (e : ε) (s : σ) : (throw e : EStateM ε σ α) s = .error e s := rfl

@[simp] theorem get_run (s : σ) : (get : EStateM ε σ σ) s = .ok s s := rfl

@[simp] theorem monadState_get_run (s : σ) : (MonadState.get : EStateM ε σ σ) s = .ok s s := rfl

@[simp] theorem modify_run (f : σ → σ) (s : σ) : (modify f : EStateM ε σ PUnit) s = .ok ⟨⟩ (f s) := rfl

theorem bind_run (x : EStateM ε σ α) (f : α → EStateM ε σ β) (s : σ) :
    (x >>= f) s = match x s with | .ok a s' => f a s' | .error e s' => .error e s' := rfl

/-- Code after a call that returns. -/
theorem bind_ok {x : EStateM ε σ α} {s s' : σ} {a : α} (h : x s = .ok a s') (f : α → EStateM ε σ β) :
    (x >>= f) s = f a s' := by
  rw [bind_run, h]

/-- Code after a call that fails is not run. -/
theorem bind_error {x : EStateM ε σ α} {s s' : σ} {e : ε} (h : x s = .error e s') (f : α → EStateM ε σ β) :
    (x >>= f) s = .error e s' := by
  rw [bind_run, h]

/-- A call that returned within code that returned. -/
theorem bind_eq_ok {x : EStateM ε σ α} {f : α → EStateM ε σ β} {s s'' : σ} {b : β}
    (h : (x >>= f) s = .ok b s'') : ∃ a s', x s = .ok a s' ∧ f a s' = .ok b s'' := by
  rw [bind_run] at h
  cases hx : x s with
  | ok a s' => rw [hx] at h; exact ⟨a, s', rfl, h⟩
  | error e s' => rw [hx] at h; cases h

/-- A computation after one that returns. -/
theorem except_bind_ok {x : Except ε α} {a : α} (h : x = .ok a) (f : α → Except ε β) : (x >>= f) = f a := by
  rw [h]; rfl

/-- Results that correspond stay so under a computation that keeps the correspondence. -/
theorem except_bind_map {α' β' : Type} {x : Except ε α} {x' : Except ε α'} {f : α' → α} {g : β' → β}
    {k : α → Except ε β} {k' : α' → Except ε β'} (hx : x = x'.map f) (hk : ∀ a, k (f a) = (k' a).map g) :
    (x >>= k) = (x' >>= k').map g := by
  rw [hx]
  cases x' with
  | error e => rfl
  | ok a => exact hk a

/-- A computation that corresponds for each result of the same one. -/
theorem except_bind_map_self {β' : Type} {x : Except ε α} {g : β' → β} {k : α → Except ε β} {k' : α → Except ε β'}
    (hk : ∀ a, k a = (k' a).map g) : (x >>= k) = (x >>= k').map g := by
  cases x with
  | error e => rfl
  | ok a => exact hk a

/-- A result, and the state it leaves. -/
def leaving (r : Except ε α) (s : σ) : EStateM.Result ε σ α :=
  match r with
  | .ok a => .ok a s
  | .error e => .error e s

@[simp] theorem leaving_ok (a : α) (s : σ) : (leaving (.ok a) s : EStateM.Result ε σ α) = .ok a s := rfl

@[simp] theorem leaving_error (e : ε) (s : σ) : (leaving (.error e) s : EStateM.Result ε σ α) = .error e s := rfl

/-- Code that returns a value once a call returns. -/
theorem bind_pure_leaving {x : EStateM ε σ α} {r : Except ε α} {s s' : σ} (h : x s = leaving r s') (b : β) :
    (x >>= fun _ => pure b) s = leaving (r.map fun _ => b) s' := by
  rw [bind_run, h]
  cases r <;> rfl

/-- An invariant of the states a loop goes through. -/
theorem forM_ok {f : α → EStateM ε σ PUnit} {P : List α → σ → Prop} {l : List α} {s : σ} (h₀ : P l s)
    (h : ∀ a l s, P (a :: l) s → ∃ s', f a s = .ok ⟨⟩ s' ∧ P l s') : ∃ s', l.forM f s = .ok ⟨⟩ s' ∧ P [] s' := by
  induction l generalizing s with
  | nil => exact ⟨s, rfl, h₀⟩
  | cons a l ih =>
    obtain ⟨s₁, h₁, hP⟩ := h a l s h₀
    obtain ⟨s₂, h₂, hP⟩ := ih hP
    exact ⟨s₂, (bind_ok h₁ _).trans h₂, hP⟩

end Run
