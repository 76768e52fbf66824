import BonsaiTrie.Framework.Preserve

/-!
# Code that may fail where other code goes on

Two versions of a program, of which the first may fail at some of its calls
(`Falters`): from a given state it does what the second one does, or fails in
a state of which something is known. The rule for sequencing needs that of the
states the second version goes through only.
-/

namespace Run

variable {ε σ τ α β : Type}

/-- From `s`, `x` does what `y` does, or fails in a state with `J`. -/
def Falters (J : σ → Prop) (x y : EStateM ε σ α) (s : σ) : Prop := x s = y s ∨ ∃ e s', x s = .error e s' ∧ J s'

namespace Falters

variable {J K : σ → Prop} {x y : EStateM ε σ α} {s : σ}

theorem refl (x : EStateM ε σ α) (s : σ) : Falters J x x s := .inl rfl

theorem mono (h : Falters J x y s) (hJK : ∀ s, J s → K s) : Falters K x y s := by
  rcases h with h | ⟨e, s', h, hJ⟩
  · exact .inl h
  · exact .inr ⟨e, s', h, hJK s' hJ⟩

/-- Code that fails leaves an invariant that it keeps. -/
theorem preserves {I : σ → Prop} (h : Falters J x y s) (hx : Preserves I x) (hs : I s) : Falters (fun s => J s ∧ I s) x y s := by
  rcases h with h | ⟨e, s', h, hJ⟩
  · exact .inl h
  · have hI := hx s hs
    rw [h] at hI
    exact .inr ⟨e, s', h, hJ, hI⟩

/-- After the same failure nothing is run. -/
theorem throw_bind (e : ε) (f g : α → EStateM ε σ β) (s : σ) :
    Falters J (MonadExcept.throw e >>= f) (MonadExcept.throw e >>= g) s := .inl rfl

/-- Two runs with the same result. -/
theorem of_result {r : EStateM.Result ε σ α} (hx : x s = r) (hy : y s = r) : Falters J x y s := .inl (hx.trans hy.symm)

/-- From a state that both versions go to. -/
theorem of_eq {x' y' : EStateM ε σ α} {s' : σ} (hx : x s = x' s') (hy : y s = y' s') (h : Falters J x' y' s') :
    Falters J x y s := by
  rw [Falters, hx, hy]
  exact h

theorem bind {f g : α → EStateM ε σ β} (h : Falters J x y s) (hf : ∀ a s', y s = .ok a s' → Falters J (f a) (g a) s') :
    Falters J (x >>= f) (y >>= g) s := by
  rcases h with h | ⟨e, s', h, hJ⟩
  · cases hy : y s with
    | ok a s' =>
      rw [hy] at h
      rcases hf a s' hy with hfg | ⟨e, s'', hfg, hJ⟩
      · exact .inl (by rw [bind_ok h, bind_ok hy, hfg])
      · exact .inr ⟨e, s'', by rw [bind_ok h, hfg], hJ⟩
    | error e s' =>
      rw [hy] at h
      exact .inl (by rw [bind_error h, bind_error hy])
  · exact .inr ⟨e, s', bind_error h f, hJ⟩

/-- After the same call. -/
theorem bind_left {f g : α → EStateM ε σ β} (hf : ∀ a s', y s = .ok a s' → Falters J (f a) (g a) s') :
    Falters J (y >>= f) (y >>= g) s := (refl y s).bind hf

/-- After the same call, which returns. -/
theorem bind_ok {f g : α → EStateM ε σ β} {a : α} {s' : σ} (hy : y s = .ok a s') (hf : Falters J (f a) (g a) s') :
    Falters J (y >>= f) (y >>= g) s :=
  bind_left fun b s'' hb => by
    rw [hy] at hb
    cases hb
    exact hf

/-- With the same call after it. -/
theorem bind_right (h : Falters J x y s) (f : α → EStateM ε σ β) : Falters J (x >>= f) (y >>= f) s :=
  h.bind fun a s' _ => refl (f a) s'

/-- A loop, whose turns keep an invariant where they return. -/
theorem forM {P : σ → Prop} {f g : β → EStateM ε σ PUnit} {l : List β}
    (h : ∀ b ∈ l, ∀ s, P s → Falters J (f b) (g b) s ∧ ∀ s', g b s = .ok ⟨⟩ s' → P s') (hP : P s) :
    Falters J (l.forM f) (l.forM g) s := by
  induction l generalizing s with
  | nil => exact .inl rfl
  | cons b l ih =>
    obtain ⟨hb, hnext⟩ := h b List.mem_cons_self s hP
    exact hb.bind fun _ s' hs' => ih (fun b hb => h b (List.mem_cons_of_mem _ hb)) (hnext s' hs')

theorem ite {p : Prop} [Decidable p] {x' y' : EStateM ε σ α} (h : Falters J x y s) (h' : Falters J x' y' s) :
    Falters J (if p then x else x') (if p then y else y') s := by
  by_cases hp : p
  · rwa [if_pos hp, if_pos hp]
  · rwa [if_neg hp, if_neg hp]

end Falters

end Run
