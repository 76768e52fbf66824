import BonsaiTrie.Framework.Agree
import BonsaiTrie.Proof.Classify

/-!
# Keys verified one by one

A verification leaves a cache of felts that hash to their nodes, however it
ends, and with any such cache the next one returns the same
(`verifyKey_agrees`). So each result for a list of keys is that of the key
alone.
-/

namespace Bonsai

open Run

namespace MultiProof

variable {proof : MultiProof} {H : StarkHash} {k : Path} {felt root : Felt} {treeHeight : UInt8} {st st' : VerifyState}

/-- The caches hold checked felts, and the paths are the same. -/
def Alike (proof : MultiProof) (H : StarkHash) (st st' : VerifyState) : Prop :=
  Checked proof H st ∧ Checked proof H st' ∧ st.currentPath = st'.currentPath

/-- The caches hold checked felts. -/
def BothChecked (proof : MultiProof) (H : StarkHash) (st st' : VerifyState) : Prop := Checked proof H st ∧ Checked proof H st'

theorem Alike.both (h : Alike proof H st st') : BothChecked proof H st st' := ⟨h.1, h.2.1⟩

/-- An error with the path takes it away. -/
theorem failTakingPath_agrees {α : Type} (h : Alike proof H st st') (e : Path → ProofVerificationError) :
    Agrees (Alike proof H) (failTakingPath e : M α) (failTakingPath e) st st' :=
  ⟨.error (.error (e st.currentPath)), { st with currentPath := [] }, { st' with currentPath := [] }, rfl,
    by rw [failTakingPath, h.2.2]; rfl, h.1, h.2.1, rfl⟩

/-- A node that was checked with one cache and not with the other has the right hash. -/
theorem checkHash_agrees (h : Alike proof H st st') {node : ProofNode} (hl : proof.lookup felt = some node) :
    Agrees (Alike proof H) (checkHash H node felt) (checkHash H node felt) st st' := by
  by_cases hh : node.hash H = some felt
  · obtain ⟨t, hrun, ht, hp⟩ := checkHash_ok h.1 hl hh
    obtain ⟨t', hrun', ht', hp'⟩ := checkHash_ok h.2.1 hl hh
    exact ⟨.ok (), t, t', hrun, hrun', ht, ht', hp.trans (h.2.2.trans hp'.symm)⟩
  · have hnone {st : VerifyState} (hst : Checked proof H st) : st.checkedCache.lookup felt = none := by
      by_contra hc
      obtain ⟨node', hl', hh'⟩ := hst felt hc
      rw [hl] at hl'
      exact hh (Option.some.inj hl' ▸ hh')
    refine .bind_get ?_
    rw [if_pos (hnone h.1), if_pos (hnone h.2.1)]
    cases hn : node.hash H with
    | none => exact .throw h _
    | some hash =>
      have hne : hash ≠ felt := fun heq => hh (by rw [hn, heq])
      simp only [if_pos hne]
      exact failTakingPath_agrees h _

theorem verifyLoop_agrees (fuel : Nat) (felt : Felt) (h : Alike proof H st st') :
    Agrees (Alike proof H) (verifyLoop proof H k treeHeight fuel felt) (verifyLoop proof H k treeHeight fuel felt) st st' := by
  induction fuel generalizing felt st st' with
  | zero => exact .throw h _
  | succ fuel ih =>
    rw [verifyLoop]
    refine .bind_get ?_
    rw [← h.2.2]
    by_cases hend : st.currentPath.length = k.length
    · rw [if_pos hend]
      exact .pure h felt
    rw [if_neg hend]
    by_cases hover : k.length < st.currentPath.length
    · rw [if_pos hover]
      exact failTakingPath_agrees h _
    rw [if_neg hover]
    cases hl : proof.lookup felt with
    | none => exact failTakingPath_agrees h _
    | some node =>
      refine (checkHash_agrees h hl).bind (fun _ t t' ht => ?_) fun _ _ ht => ht
      have hpush (p : Path) : Alike proof H { t with currentPath := t.currentPath ++ p }
          { t' with currentPath := t'.currentPath ++ p } := ⟨ht.1, ht.2.1, by rw [ht.2.2]⟩
      cases node with
      | binary left right =>
        cases hbit : k[st.currentPath.length]? with
        | none => exact .throw ht _
        | some bit => exact .bind_modify (ih _ (hpush [bit]))
      | edge child path =>
        by_cases hslice : slice k st.currentPath.length path.length ≠ some path
        · simp only [if_pos hslice]
          exact .pure ht 0
        · simp only [if_neg hslice]
          exact .bind_modify (ih child (hpush path))

/-- The verification of a key returns the same with any cache of checked felts. -/
theorem verifyKey_agrees (h : BothChecked proof H st st') :
    Agrees (BothChecked proof H) (verifyKey proof H root treeHeight k) (verifyKey proof H root treeHeight k) st st' := by
  by_cases hk : k.length = treeHeight.toNat
  · have hne : ¬ k.length ≠ treeHeight.toNat := by simpa using hk
    have hstart : Alike proof H { st with currentPath := [] } { st' with currentPath := [] } := ⟨h.1, h.2, rfl⟩
    rw [verifyKey, if_neg hne]
    exact .bind_modify ((verifyLoop_agrees _ root hstart).mono fun _ _ => Alike.both)
  · exact ⟨_, st, st', verifyKey_keyLength hk, verifyKey_keyLength hk, h⟩

/-- The result for one key. -/
theorem verifyKeys_singleton {key : BitSlice} {result : Except VerifyFailure Felt}
    (hrun : verifyKey proof H root treeHeight key.bits st = leaving result st') :
    verifyKeys proof H root treeHeight [key] st = [result] := by
  rw [verifyKeys, hrun]
  rcases result with (e | _ | _) | v <;> rfl

/-- A verification that is given up, with a panic or without an end. -/
def GivesUp (result : Except VerifyFailure Felt) : Prop := ∀ v e, result ≠ .ok v ∧ result ≠ .error (.error e)

/-- The results for more keys come after that for the first, unless it is given up. -/
theorem verifyKeys_cons {key : BitSlice} {keys : List BitSlice} {result : Except VerifyFailure Felt}
    (hrun : verifyKey proof H root treeHeight key.bits st = leaving result st') (hup : ¬ GivesUp result) :
    verifyKeys proof H root treeHeight (key :: keys) st = result :: verifyKeys proof H root treeHeight keys st' := by
  rw [verifyKeys, hrun]
  rcases result with (e | _ | _) | v
  · rfl
  · refine (hup fun v e => ⟨?_, ?_⟩).elim <;> intro h <;> cases h
  · refine (hup fun v e => ⟨?_, ?_⟩).elim <;> intro h <;> cases h
  · rfl

theorem verifyKeys_cons_givesUp {key : BitSlice} {keys : List BitSlice} {result : Except VerifyFailure Felt}
    (hrun : verifyKey proof H root treeHeight key.bits st = leaving result st') (hup : GivesUp result) :
    verifyKeys proof H root treeHeight (key :: keys) st = [result] := by
  rw [verifyKeys, hrun]
  rcases result with (e | _ | _) | v
  · exact ((hup 0 e).2 rfl).elim
  · rfl
  · rfl
  · exact ((hup v (.keyLengthMismatch [] 0 0)).1 rfl).elim

/-- The results for a list are those of its keys alone, up to the first that is given up. -/
theorem verifyKeys_each {keys : List BitSlice} (hst : Checked proof H st) :
    ∀ (i : Nat) (key : BitSlice), keys[i]? = some key →
      (∀ result, (verifyKeys proof H root treeHeight keys st)[i]? = some result →
        verifyProof proof H root [key] treeHeight = [result]) ∧
      ((∀ earlier ∈ keys.take i, ∀ result, verifyProof proof H root [earlier] treeHeight = [result] → ¬ GivesUp result) →
        ((verifyKeys proof H root treeHeight keys st)[i]?).isSome) := by
  induction keys generalizing st with
  | nil =>
    intro i key h
    cases h
  | cons k keys ih =>
    intro i key hkey
    have hboth : BothChecked proof H st ⟨∅, []⟩ := ⟨hst, checked_start proof H⟩
    have hagrees : Agrees (BothChecked proof H) (verifyKey proof H root treeHeight k.bits)
        (verifyKey proof H root treeHeight k.bits) st ⟨∅, []⟩ := verifyKey_agrees hboth
    obtain ⟨r, t, t', hrun, hrun', ht, ht'⟩ := hagrees
    have hsingle : verifyProof proof H root [k] treeHeight = [r] := verifyKeys_singleton hrun'
    by_cases hup : GivesUp r
    · rw [verifyKeys_cons_givesUp hrun hup]
      cases i with
      | zero =>
        obtain rfl := Option.some.inj hkey
        exact ⟨fun result h => by rw [hsingle, Option.some.inj h], fun _ => rfl⟩
      | succ i => exact ⟨nofun, fun h => (h k (by simp) r hsingle hup).elim⟩
    · rw [verifyKeys_cons hrun hup]
      cases i with
      | zero =>
        obtain rfl := Option.some.inj hkey
        exact ⟨fun result h => by rw [hsingle, Option.some.inj h], fun _ => rfl⟩
      | succ i =>
        obtain ⟨hres, hsome⟩ := ih ht i key hkey
        exact ⟨hres, fun h => hsome fun earlier hmem => h earlier (by simp [hmem])⟩

/-- Each result of a verification is the one of its key alone, and there is one for every key unless
that of an earlier key alone is given up. -/
theorem verifyProof_each (proof : MultiProof) (H : StarkHash) (root : Felt) (treeHeight : UInt8) (keys : List BitSlice)
    (i : Nat) (key : BitSlice) (hkey : keys[i]? = some key) :
    (∀ result, (verifyProof proof H root keys treeHeight)[i]? = some result →
        verifyProof proof H root [key] treeHeight = [result]) ∧
      ((∀ earlier ∈ keys.take i, ∀ result, verifyProof proof H root [earlier] treeHeight = [result] → ¬ GivesUp result) →
        ((verifyProof proof H root keys treeHeight)[i]?).isSome) :=
  verifyKeys_each (checked_start proof H) i key hkey

end MultiProof

theorem verifyProof_each_pair :
    MultiProof.verifyProof pairProof (fun a b => a + b) 5 [.aligned [true, true]] 2 = [.ok 2] :=
  (MultiProof.verifyProof_each pairProof (fun a b => a + b) 5 2 [.aligned [true], .aligned [false, true], .aligned [true, true]] 2
    (.aligned [true, true]) rfl).1 (.ok 2) (by decide +kernel)

end Bonsai
