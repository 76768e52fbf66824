import BonsaiTrie.Framework.Run

/-!
# Runs that return the same

Two programs run from two states that return the same, value or error, and
leave related states (`Agrees`), with the rules by which code that reads and
changes its state is put together.
-/

namespace Run

variable {ε σ α β : Type}

/-- From `s` and from `s'`, the programs return the same and leave related states. -/
def Agrees (R : σ → σ → Prop) (x y : EStateM ε σ α) (s s' : σ) : Prop :=
  ∃ r t t', x s = leaving r t ∧ y s' = leaving r t' ∧ R t t'

namespace Agrees

variable {R R' : σ → σ → Prop} {x y : EStateM ε σ α} {s s' : σ}

theorem mono (h : Agrees R x y s s') (hR : ∀ t t', R t t' → R' t t') : Agrees R' x y s s' := by
  obtain ⟨r, t, t', hx, hy, ht⟩ := h
  exact ⟨r, t, t', hx, hy, hR t t' ht⟩

theorem pure (hR : R s s') (a : α) : Agrees R (pure a : EStateM ε σ α) (Pure.pure a) s s' := ⟨.ok a, s, s', rfl, rfl, hR⟩

theorem throw (hR : R s s') (e : ε) : Agrees R (throw e : EStateM ε σ α) (throwThe ε e) s s' := ⟨.error e, s, s', rfl, rfl, hR⟩

theorem bind {f g : α → EStateM ε σ β} (h : Agrees R x y s s') (hf : ∀ a t t', R t t' → Agrees R' (f a) (g a) t t')
    (hR : ∀ t t', R t t' → R' t t') : Agrees R' (x >>= f) (y >>= g) s s' := by
  obtain ⟨r, t, t', hx, hy, ht⟩ := h
  cases r with
  | ok a =>
    obtain ⟨r, u, u', hu, hu', hR'⟩ := hf a t t' ht
    exact ⟨r, u, u', (bind_ok hx f).trans hu, (bind_ok hy g).trans hu', hR'⟩
  | error e => exact ⟨.error e, t, t', bind_error hx f, bind_error hy g, hR t t' ht⟩

/-- Code that looks at its state. -/
theorem bind_get {f g : σ → EStateM ε σ β} (h : Agrees R (f s) (g s') s s') :
    Agrees R ((MonadState.get : EStateM ε σ σ) >>= f) ((MonadState.get : EStateM ε σ σ) >>= g) s s' := h

/-- Code after a change of the state. -/
theorem bind_modify {u v : σ → σ} {f g : PUnit → EStateM ε σ β} (h : Agrees R (f ⟨⟩) (g ⟨⟩) (u s) (v s')) :
    Agrees R ((modify u : EStateM ε σ PUnit) >>= f) ((modify v : EStateM ε σ PUnit) >>= g) s s' := h

end Agrees

end Run
