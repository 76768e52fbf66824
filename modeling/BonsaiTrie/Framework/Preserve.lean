import BonsaiTrie.Framework.Run

/-!
# Invariants of stateful code

An invariant that code keeps whether it returns or fails (`Preserves`), with a
rule for each way code is put together.
-/

namespace Run

variable {ε σ τ α β : Type}

/-- The state that code leaves. -/
def left : EStateM.Result ε σ α → σ
  | .ok _ s => s
  | .error _ s => s

@[simp] theorem left_ok (a : α) (s : σ) : left (.ok a s : EStateM.Result ε σ α) = s := rfl

@[simp] theorem left_error (e : ε) (s : σ) : left (.error e s : EStateM.Result ε σ α) = s := rfl

/-- Code keeps an invariant. -/
def Preserves (I : σ → Prop) (x : EStateM ε σ α) : Prop := ∀ s, I s → I (left (x s))

namespace Preserves

variable {I : σ → Prop} {x : EStateM ε σ α}

theorem pure (a : α) : Preserves I (pure a : EStateM ε σ α) := fun _ h => h

theorem throw (e : ε) : Preserves I (throw e : EStateM ε σ α) := fun _ h => h

theorem throw_bind (e : ε) (f : α → EStateM ε σ β) : Preserves I (MonadExcept.throw e >>= f) := fun _ h => h

theorem pure_bind {a : α} {f : α → EStateM ε σ β} (h : Preserves I (f a)) : Preserves I (Pure.pure a >>= f) := h

theorem get : Preserves I (get : EStateM ε σ σ) := fun _ h => h

theorem modify {f : σ → σ} (h : ∀ s, I s → I (f s)) : Preserves I (modify f : EStateM ε σ PUnit) := h

theorem bind {f : α → EStateM ε σ β} (hx : Preserves I x) (hf : ∀ a, Preserves I (f a)) : Preserves I (x >>= f) := by
  intro s hs
  have h := hx s hs
  rw [bind_run]
  cases hxs : x s with
  | ok a s' => rw [hxs] at h; exact hf a s' h
  | error e s' => rw [hxs] at h; exact h

/-- Code after code whose results have a property. -/
theorem bind_of {f : α → EStateM ε σ β} {Q : α → Prop} (hx : Preserves I x) (hQ : ∀ s a s', x s = .ok a s' → Q a)
    (hf : ∀ a, Q a → Preserves I (f a)) : Preserves I (x >>= f) := by
  intro s hs
  have h := hx s hs
  rw [bind_run]
  cases hxs : x s with
  | ok a s' => rw [hxs] at h; exact hf a (hQ s a s' hxs) s' h
  | error e s' => rw [hxs] at h; exact h

/-- Code after a look at the state. -/
theorem bind_get {f : σ → EStateM ε σ β} (hf : ∀ s, I s → I (left (f s s))) :
    Preserves I ((MonadState.get : EStateM ε σ σ) >>= f) := fun s hs => by
  rw [bind_run]
  exact hf s hs

theorem ite {p : Prop} [Decidable p] {y : EStateM ε σ α} (hx : Preserves I x) (hy : Preserves I y) :
    Preserves I (if p then x else y) := by
  by_cases hp : p
  · rwa [if_pos hp]
  · rwa [if_neg hp]

theorem forM {f : β → EStateM ε σ PUnit} {l : List β} (h : ∀ b ∈ l, Preserves I (f b)) : Preserves I (l.forM f) := by
  induction l with
  | nil => exact pure _
  | cons b l ih =>
    exact bind (h b List.mem_cons_self) fun _ => ih fun b hb => h b (List.mem_cons_of_mem _ hb)

end Preserves

end Run
