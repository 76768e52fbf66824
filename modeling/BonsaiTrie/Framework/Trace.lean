import BonsaiTrie.Framework.Run

/-!
# Runs of calls

Calls made one after the other on a state, each from the state the last one
left, whether it returned or failed: the state in the end (`after`), what the
calls returned (`answers`), and conditions on the state before each
(`Meets`). `invariant` and `simulates` are the rules for whole runs, `padded`
that for two runs of which one makes more calls than the other.
-/

namespace Trace

variable {κ ε σ ρ τ : Type} (run : κ → EStateM ε σ ρ)

/-- What a call returns. -/
def answer (c : κ) (s : σ) : Except ε ρ :=
  match run c s with
  | .ok a _ => .ok a
  | .error e _ => .error e

/-- The state a call leaves. -/
def next (c : κ) (s : σ) : σ :=
  match run c s with
  | .ok _ s => s
  | .error _ s => s

/-- The state a run leaves. -/
def after (cs : List κ) (s : σ) : σ := cs.foldl (fun s c => next run c s) s

/-- What the calls of a run return. -/
def answers : List κ → σ → List (Except ε ρ)
  | [], _ => []
  | c :: cs, s => answer run c s :: answers cs (next run c s)

/-- Every call of a run meets a condition on the state before it. -/
def Meets (cond : σ → κ → Prop) : List κ → σ → Prop
  | [], _ => True
  | c :: cs, s => cond s c ∧ Meets cond cs (next run c s)

/-- What the calls of a run that are not quiet return. -/
def heard (quiet : κ → Bool) : List κ → σ → List (Except ε ρ)
  | [], _ => []
  | c :: cs, s => if quiet c then heard quiet cs (next run c s) else answer run c s :: heard quiet cs (next run c s)

/-- Calls like those of another run, with quiet ones put between them. -/
inductive Padded (quiet : κ → Bool) (alike : κ → κ → Prop) : List κ → List κ → Prop where
  | nil : Padded quiet alike [] []
  | pad {c : κ} {cs cs' : List κ} : quiet c = true → Padded quiet alike cs cs' → Padded quiet alike (c :: cs) cs'
  | call {c c' : κ} {cs cs' : List κ} : quiet c = false → alike c c' → Padded quiet alike cs cs' →
    Padded quiet alike (c :: cs) (c' :: cs')

/-- What the calls of a run return is explained by those of another machine, of which each stands for one. -/
def Explained {κ' ε' σ' ρ' : Type} (run' : κ' → EStateM ε' σ' ρ') (f : κ' → κ)
    (explains : κ' → Except ε ρ → Except ε' ρ' → Prop) : List κ' → σ → σ' → Prop
  | [], _, _ => True
  | c' :: cs', s, s' => explains c' (answer run (f c') s) (answer run' c' s') ∧
    Explained run' f explains cs' (next run (f c') s) (next run' c' s')

variable {run} {c : κ} {cs : List κ} {s s' : σ}

@[simp] theorem after_nil : after run [] s = s := rfl

@[simp] theorem after_cons : after run (c :: cs) s = after run cs (next run c s) := rfl

theorem after_append (cs' : List κ) : after run (cs ++ cs') s = after run cs' (after run cs s) := List.foldl_append

theorem after_concat (cs : List κ) (c : κ) : after run (cs ++ [c]) s = next run c (after run cs s) := after_append _

theorem answer_of {r : Except ε ρ} (h : run c s = Run.leaving r s') : answer run c s = r := by
  rw [answer, h]
  cases r <;> rfl

theorem next_of {r : Except ε ρ} (h : run c s = Run.leaving r s') : next run c s = s' := by
  rw [next, h]
  cases r <;> rfl

/-- Calls that do the same, one by one. -/
theorem congr {cs' : List κ} (h : List.Forall₂ (fun c c' => run c = run c') cs cs') :
    after run cs s = after run cs' s ∧ answers run cs s = answers run cs' s := by
  induction h generalizing s with
  | nil => exact ⟨rfl, rfl⟩
  | @cons c c' cs cs' hc _ ih =>
    have hnext : next run c s = next run c' s := by rw [next, hc]; rfl
    have hanswer : answer run c s = answer run c' s := by rw [answer, hc]; rfl
    rw [after_cons, after_cons, answers, answers, hnext, hanswer]
    exact ⟨ih.1, congrArg _ ih.2⟩

/-- A condition on the calls alone is met by every run of such calls. -/
theorem meets_of_forall {Q : κ → Prop} (h : ∀ c ∈ cs, Q c) : Meets run (fun _ c => Q c) cs s := by
  induction cs generalizing s with
  | nil => trivial
  | cons c cs ih => exact ⟨h c List.mem_cons_self, ih fun c hc => h c (List.mem_cons_of_mem _ hc)⟩

theorem Meets.and {cond cond' : σ → κ → Prop} (h : Meets run cond cs s) (h' : Meets run cond' cs s) :
    Meets run (fun s c => cond s c ∧ cond' s c) cs s := by
  induction cs generalizing s with
  | nil => trivial
  | cons c cs ih => exact ⟨⟨h.1, h'.1⟩, ih h.2 h'.2⟩

/-- A relation to an abstract state is kept along a run when each call keeps it, and the calls return
what they return there. -/
theorem simulates {cond : σ → κ → Prop} {R : σ → τ → Prop} {f : τ → κ → τ} {g : τ → κ → Except ε ρ}
    (hstep : ∀ s a c, R s a → cond s c → answer run c s = g a c ∧ R (next run c s) (f a c)) {a : τ} (hR : R s a)
    (hrun : Meets run cond cs s) :
    R (after run cs s) (cs.foldl f a) ∧
      answers run cs s = answers (fun c a => Run.leaving (g a c) (f a c)) cs a := by
  induction cs generalizing s a with
  | nil => exact ⟨hR, rfl⟩
  | cons c cs ih =>
    obtain ⟨hans, hR'⟩ := hstep s a c hR hrun.1
    obtain ⟨hend, hrest⟩ := ih hR' hrun.2
    have hnext : next (fun c a => Run.leaving (g a c) (f a c)) c a = f a c := next_of rfl
    have hanswer : answer (fun c a => Run.leaving (g a c) (f a c)) c a = g a c := answer_of rfl
    refine ⟨hend, ?_⟩
    show answer run c s :: answers run cs _ = answer _ c a :: answers _ cs _
    rw [hans, hrest, hanswer, hnext]

/-- A machine refines another one, whose errors it reports in its own way, along a run when each call does. -/
theorem refines {ε' : Type} {report : ε' → ε} {spec : κ → EStateM ε' τ ρ} {cond : σ → κ → Prop} {R : σ → τ → Prop}
    (hstep : ∀ s a c, R s a → cond s c →
      answer run c s = (answer spec c a).mapError report ∧ R (next run c s) (next spec c a)) {a : τ} (hR : R s a)
    (hrun : Meets run cond cs s) :
    R (after run cs s) (after spec cs a) ∧ answers run cs s = (answers spec cs a).map (Except.mapError report) := by
  induction cs generalizing s a with
  | nil => exact ⟨hR, rfl⟩
  | cons c cs ih =>
    obtain ⟨hans, hR'⟩ := hstep s a c hR hrun.1
    obtain ⟨hend, hrest⟩ := ih hR' hrun.2
    exact ⟨hend, by rw [answers, answers, List.map_cons, hans, hrest]⟩

/-- A run is explained when, in related states, some call of the other machine explains each call and keeps the
relation. -/
theorem explained {κ' ε' σ' ρ' : Type} {run' : κ' → EStateM ε' σ' ρ'} {f : κ' → κ}
    (explains : κ' → Except ε ρ → Except ε' ρ' → Prop) {cond : κ → Prop} {R : σ → σ' → Prop}
    (hstep : ∀ s t c, R s t → cond c → ∃ c', f c' = c ∧ explains c' (answer run c s) (answer run' c' t) ∧
      R (next run c s) (next run' c' t)) (hcs : ∀ c ∈ cs, cond c) {t : σ'} (hR : R s t) :
    ∃ cs', cs'.map f = cs ∧ Explained run run' f explains cs' s t ∧ R (after run cs s) (after run' cs' t) := by
  induction cs generalizing s t with
  | nil => exact ⟨[], rfl, trivial, hR⟩
  | cons c cs ih =>
    obtain ⟨hc, hrest⟩ := List.forall_mem_cons.mp hcs
    obtain ⟨c', rfl, hexp, hR'⟩ := hstep s t c hR hc
    obtain ⟨cs', rfl, hexp', hend⟩ := ih hrest hR'
    exact ⟨c' :: cs', rfl, ⟨hexp, hexp'⟩, hend⟩

/-- What every call keeps, a run keeps. -/
theorem invariant {cond : σ → κ → Prop} {I : σ → Prop} (hstep : ∀ s c, I s → cond s c → I (next run c s)) (hI : I s)
    (hrun : Meets run cond cs s) : I (after run cs s) := by
  induction cs generalizing s with
  | nil => exact hI
  | cons c cs ih => exact ih (hstep s c hI hrun.1) hrun.2

/-- Two runs of the same calls, from states with a relation that every call keeps and that fixes what it returns. -/
theorem agree {Q : κ → Prop} {R : σ → σ → Prop}
    (hstep : ∀ s s' c, R s s' → Q c → answer run c s = answer run c s' ∧ R (next run c s) (next run c s'))
    (hQ : ∀ c ∈ cs, Q c) (hR : R s s') :
    R (after run cs s) (after run cs s') ∧ answers run cs s = answers run cs s' := by
  induction cs generalizing s s' with
  | nil => exact ⟨hR, rfl⟩
  | cons c cs ih =>
    obtain ⟨hQc, hQ⟩ := List.forall_mem_cons.mp hQ
    obtain ⟨hans, hR'⟩ := hstep s s' c hR hQc
    obtain ⟨hend, hrest⟩ := ih hQ hR'
    exact ⟨hend, by rw [answers, answers, hans, hrest]⟩

variable (run) in
/-- Quiet calls change nothing when they keep a relation to the other run, and like calls return the
same and keep it. -/
theorem padded {quiet : κ → Bool} {alike : κ → κ → Prop} {Q : κ → Prop} {R : σ → σ → Prop}
    (hquiet : ∀ s s' c, R s s' → Q c → quiet c = true → R (next run c s) s')
    (hcall : ∀ s s' c c', R s s' → Q c → alike c c' →
      answer run c s = answer run c' s' ∧ R (next run c s) (next run c' s'))
    {cs' : List κ} (hcs : Padded quiet alike cs cs') (hQ : ∀ c ∈ cs, Q c) (hR : R s s') :
    R (after run cs s) (after run cs' s') ∧ heard run quiet cs s = answers run cs' s' := by
  induction hcs generalizing s s' with
  | nil => exact ⟨hR, rfl⟩
  | @pad c cs cs' hc _ ih =>
    obtain ⟨hQc, hQ⟩ := List.forall_mem_cons.mp hQ
    obtain ⟨hend, hheard⟩ := ih hQ (hquiet s s' c hR hQc hc)
    exact ⟨hend, by rw [heard, if_pos hc, hheard]⟩
  | @call c c' cs cs' hc hlike _ ih =>
    obtain ⟨hQc, hQ⟩ := List.forall_mem_cons.mp hQ
    obtain ⟨hans, hR'⟩ := hcall s s' c c' hR hQc hlike
    obtain ⟨hend, hheard⟩ := ih hQ hR'
    exact ⟨hend, by rw [heard, if_neg (by simp [hc]), hans, hheard, answers]⟩

end Trace
