import BonsaiTrie.Framework.Run

/-!
# How code ends

What holds when code returns and what holds when it fails (`Ends`), with a
rule for each way code is put together. A loop is given an invariant of what is
left to do and the state.
-/

namespace Run

variable {ε σ α β : Type}

/-- From `s`, code returns with `P`, or fails with `J`. -/
def Ends (P : α → σ → Prop) (J : ε → σ → Prop) (x : EStateM ε σ α) (s : σ) : Prop :=
  match x s with
  | .ok a s' => P a s'
  | .error e s' => J e s'

namespace Ends

variable {P Q : α → σ → Prop} {J K : ε → σ → Prop} {x : EStateM ε σ α} {s s' : σ}

theorem of_ok {a : α} (h : x s = .ok a s') (hP : P a s') : Ends P J x s := by
  rw [Ends, h]
  exact hP

theorem of_error {e : ε} (h : x s = .error e s') (hJ : J e s') : Ends P J x s := by
  rw [Ends, h]
  exact hJ

theorem of_eq {y : EStateM ε σ α} (h : x s = y s') (hy : Ends P J y s') : Ends P J x s := by
  rw [Ends, h]
  exact hy

theorem elim (h : Ends P J x s) : (∃ a s', x s = .ok a s' ∧ P a s') ∨ ∃ e s', x s = .error e s' ∧ J e s' := by
  rw [Ends] at h
  cases hx : x s with
  | ok a s' =>
    rw [hx] at h
    exact .inl ⟨a, s', rfl, h⟩
  | error e s' =>
    rw [hx] at h
    exact .inr ⟨e, s', rfl, h⟩

theorem mono (h : Ends P J x s) (hP : ∀ a s', P a s' → Q a s') (hJ : ∀ e s', J e s' → K e s') : Ends Q K x s := by
  obtain ⟨a, s', hx, h⟩ | ⟨e, s', hx, h⟩ := h.elim
  · exact of_ok hx (hP a s' h)
  · exact of_error hx (hJ e s' h)

theorem pure {a : α} (h : P a s) : Ends P J (pure a : EStateM ε σ α) s := h

theorem bind {R : β → σ → Prop} {f : α → EStateM ε σ β} (h : Ends P J x s) (hf : ∀ a s', P a s' → Ends R J (f a) s') :
    Ends R J (x >>= f) s := by
  obtain ⟨a, s', hx, h⟩ | ⟨e, s', hx, h⟩ := h.elim
  · rw [Ends, bind_ok hx]
    exact hf a s' h
  · exact of_error (bind_error hx f) h

theorem forM {I : List β → σ → Prop} {f : β → EStateM ε σ PUnit} {l : List β} (hI : I l s)
    (h : ∀ b l s, I (b :: l) s → Ends (fun _ => I l) J (f b) s) : Ends (fun _ => I []) J (l.forM f) s := by
  induction l generalizing s with
  | nil => exact pure hI
  | cons b l ih => exact (h b l s hI).bind fun _ _ hI => ih hI

end Ends

end Run
