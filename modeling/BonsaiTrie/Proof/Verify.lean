import BonsaiTrie.Proof.Prove
import BonsaiTrie.Spec.Verification

/-!
# Verification

`verifyLoop_ok` says where the loop of a verification ends: at what the walk
reaches, or nowhere if the walk goes on for ever. So an accepted walk follows
the trie its root is the hash of (`verifyProof_sound`), the walk through an
honest proof is accepted (`verifyProof_complete`).
-/

namespace Bonsai

open Patricia Run Relation

namespace MultiProof

variable {proof : MultiProof} {H : StarkHash} {k p : Path} {felt root : Felt} {treeHeight : UInt8} {st : VerifyState}

/-- The felts that were checked are hashes of their nodes. -/
def Checked (proof : MultiProof) (H : StarkHash) (st : VerifyState) : Prop :=
  ∀ felt, st.checkedCache.lookup felt ≠ none → ∃ node, proof.lookup felt = some node ∧ node.hash H = some felt

theorem checked_start (proof : MultiProof) (H : StarkHash) : Checked proof H ⟨∅, []⟩ := fun _ h => (h rfl).elim

/-- How the verification ends at a felt that the walk reaches. -/
inductive Final (proof : MultiProof) (H : StarkHash) (k p : Path) (felt : Felt) : Except VerifyFailure Felt → Prop where
  | value : p.length = k.length → Final proof H k p felt (.ok felt)
  | missing : p.length < k.length → proof.lookup felt = none → Final proof H k p felt (.error (.error (.missingNode p felt)))
  | panic {node : ProofNode} : p.length < k.length → proof.lookup felt = some node → node.hash H = none →
    Final proof H k p felt (.error (.panic "attempt to subtract with overflow"))
  | mismatch {node : ProofNode} {hash : Felt} : p.length < k.length → proof.lookup felt = some node →
    node.hash H = some hash → hash ≠ felt → Final proof H k p felt (.error (.error (.hashMismatch p felt hash)))
  | leaves {child : Felt} {path : Path} : p.length < k.length → proof.lookup felt = some (.edge child path) →
    hashEdgeNode H path child = some felt → ¬ p ++ path <+: k → Final proof H k p felt (.ok 0)

/-- The felt after a number of steps. -/
def walk (proof : MultiProof) (H : StarkHash) (k : Path) : Nat → Path × Felt → Option (Path × Felt)
  | 0, a => some a
  | i + 1, a => (walkStep proof H k a).bind (walk proof H k i)

/-- The slice of a key is the path of an edge where the edge goes on along the key. -/
theorem slice_eq_iff (hp : p <+: k) (q : Path) : slice k p.length q.length = some q ↔ p ++ q <+: k := by
  obtain ⟨r, rfl⟩ := hp
  rw [slice, List.drop_left, List.prefix_append_right_inj]
  split
  · rename_i hlen
    rw [Option.some.injEq, List.prefix_iff_eq_take]
    exact eq_comm
  · rename_i hlen
    refine ⟨nofun, fun h => (hlen ?_).elim⟩
    rw [List.length_append]
    have := h.length_le
    omega

/-- The check of a node that hashes to its felt. -/
theorem checkHash_ok (hst : Checked proof H st) {node : ProofNode} (hl : proof.lookup felt = some node)
    (hh : node.hash H = some felt) :
    ∃ st', checkHash H node felt st = .ok () st' ∧ Checked proof H st' ∧ st'.currentPath = st.currentPath := by
  by_cases hc : st.checkedCache.lookup felt = none
  · refine ⟨{ st with checkedCache := st.checkedCache.insert felt () }, ?_, fun f hf => ?_, rfl⟩
    · simp [checkHash, bind_run, hc, hh]
    · by_cases hf' : f = felt
      · exact ⟨node, hf' ▸ hl, hf' ▸ hh⟩
      · exact hst f (by simpa [AList.lookup_insert_ne hf'] using hf)
  · exact ⟨st, by simp [checkHash, bind_run, hc], hst, rfl⟩

/-- The check of a node that does not, or that has no hash. -/
theorem checkHash_error (hst : Checked proof H st) {node : ProofNode} (hp : st.currentPath = p) (hlt : p.length < k.length)
    (hl : proof.lookup felt = some node) (hh : node.hash H ≠ some felt) :
    ∃ e st', checkHash H node felt st = .error e st' ∧ Checked proof H st' ∧ Final proof H k p felt (.error e) := by
  have hc : st.checkedCache.lookup felt = none := by
    by_contra hc
    obtain ⟨node', hl', hh'⟩ := hst felt hc
    rw [hl] at hl'
    exact hh (Option.some.inj hl' ▸ hh')
  cases hn : node.hash H with
  | none => exact ⟨_, st, by simp [checkHash, bind_run, hc, hn], hst, .panic hlt hl hn⟩
  | some hash =>
    have hne : hash ≠ felt := fun h => hh (hn.trans (congrArg some h))
    exact ⟨_, { st with currentPath := [] }, by simp [checkHash, bind_run, hc, hn, hne, failTakingPath, hp], hst,
      .mismatch hlt hl hn hne⟩

theorem walkStep_binary {left right : Felt} {bit : Bool} (hlt : p.length < k.length)
    (hl : proof.lookup felt = some (.binary left right)) (hh : hashBinaryNode H left right = felt)
    (hbit : k[p.length]? = some bit) :
    walkStep proof H k (p, felt) = some (p ++ [bit], if bit then right else left) := by
  rw [walkStep, if_neg (by omega), hl]
  simp only [ProofNode.hash, hh, ne_eq, not_true_eq_false, if_false, hbit, Option.map_some]

theorem walkStep_edge {child : Felt} {path : Path} (hlt : p.length < k.length)
    (hl : proof.lookup felt = some (.edge child path)) (hh : hashEdgeNode H path child = some felt) (hpre : p ++ path <+: k) :
    walkStep proof H k (p, felt) = some (p ++ path, child) := by
  rw [walkStep, if_neg (by omega), hl]
  simp only [ProofNode.hash, hh, ne_eq, not_true_eq_false, if_false, if_pos hpre]

/-- The verification ends at a felt that the walk reaches; or it does not end, and the walk goes on. -/
def Ends (proof : MultiProof) (H : StarkHash) (k : Path) (fuel : Nat) (p : Path) (felt : Felt)
    (r : Except VerifyFailure Felt) : Prop :=
  (∃ i p' felt', walk proof H k i (p, felt) = some (p', felt') ∧ Final proof H k p' felt' r) ∨
    r = .error .diverges ∧ (walk proof H k fuel (p, felt)).isSome

theorem Ends.step {fuel : Nat} {p' : Path} {felt' : Felt} {r : Except VerifyFailure Felt}
    (hstep : walkStep proof H k (p, felt) = some (p', felt')) (h : Ends proof H k fuel p' felt' r) :
    Ends proof H k (fuel + 1) p felt r := by
  have hwalk (i : Nat) : walk proof H k (i + 1) (p, felt) = walk proof H k i (p', felt') := by rw [walk, hstep]; rfl
  rcases h with ⟨i, p'', felt'', hi, hfin⟩ | ⟨hr, hi⟩
  · exact .inl ⟨i + 1, p'', felt'', (hwalk i).trans hi, hfin⟩
  · exact .inr ⟨hr, by rw [hwalk fuel]; exact hi⟩

theorem Final.ends {fuel : Nat} {r : Except VerifyFailure Felt} (h : Final proof H k p felt r) : Ends proof H k fuel p felt r :=
  .inl ⟨0, p, felt, rfl, h⟩

/-- Where the loop ends: at a felt that the walk reaches, or nowhere. -/
theorem verifyLoop_ok (treeHeight : UInt8) (fuel : Nat) (felt : Felt) (st : VerifyState) (hst : Checked proof H st)
    (hp : st.currentPath = p) (hk : p <+: k) :
    ∃ r st', verifyLoop proof H k treeHeight fuel felt st = leaving r st' ∧ Checked proof H st' ∧
      Ends proof H k fuel p felt r := by
  induction fuel generalizing felt st p with
  | zero => exact ⟨_, st, rfl, hst, .inr ⟨rfl, rfl⟩⟩
  | succ fuel ih =>
    rw [verifyLoop, bind_ok (get_run st), hp]
    by_cases hend : p.length = k.length
    · rw [if_pos hend]
      exact ⟨.ok felt, st, rfl, hst, Final.ends (.value hend)⟩
    have hlt : p.length < k.length := lt_of_le_of_ne hk.length_le hend
    rw [if_neg hend, if_neg (by omega)]
    cases hl : proof.lookup felt with
    | none =>
      refine ⟨_, { st with currentPath := [] }, ?_, hst, Final.ends (.missing hlt hl)⟩
      simp [failTakingPath, hp]
    | some node =>
      by_cases hh : node.hash H = some felt
      · obtain ⟨st₁, hrun, hst₁, hp₁⟩ := checkHash_ok hst hl hh
        cases node with
        | binary left right =>
          have hbit : k[p.length]? = some k[p.length] := List.getElem?_eq_getElem hlt
          have hpre : p ++ [k[p.length]] <+: k := by
            rw [List.prefix_iff_eq_take, List.length_append, List.length_singleton, List.take_add_one, hbit,
              ← List.prefix_iff_eq_take.mp hk]
            rfl
          obtain ⟨r, st', hrun', hst', hends⟩ := ih (if k[p.length] then right else left)
            { st₁ with currentPath := st₁.currentPath ++ [k[p.length]] } hst₁ (by rw [hp₁, hp]) hpre
          refine ⟨r, st', (bind_ok hrun _).trans ?_, hst', .step (walkStep_binary hlt hl (Option.some.inj hh) hbit) hends⟩
          simp only [hbit]
          rw [bind_ok (modify_run _ _), ← hrun']
          cases k[p.length] <;> rfl
        | edge child path =>
          by_cases hpre : p ++ path <+: k
          · obtain ⟨r, st', hrun', hst', hends⟩ := ih child
              { st₁ with currentPath := st₁.currentPath ++ path } hst₁ (by rw [hp₁, hp]) hpre
            refine ⟨r, st', (bind_ok hrun _).trans ?_, hst', .step (walkStep_edge hlt hl hh hpre) hends⟩
            rw [← hrun']
            simp only [(slice_eq_iff hk path).mpr hpre, ne_eq, not_true_eq_false, if_false]
            rfl
          · refine ⟨.ok 0, st₁, (bind_ok hrun _).trans ?_, hst₁, Final.ends (.leaves hlt hl hh hpre)⟩
            simp only [ne_eq, (slice_eq_iff hk path).not.mpr hpre, not_false_eq_true, if_true]
            rfl
      · obtain ⟨e, st', hrun, hst', hfin⟩ := checkHash_error hst hp hlt hl hh
        exact ⟨.error e, st', bind_error hrun _, hst', hfin.ends⟩

theorem length_lt_verifyFuel (proof : MultiProof) (k : Path) : k.length < verifyFuel proof k := by
  have := Nat.le_mul_of_pos_right (k.length + 1) (Nat.add_one_pos proof.entries.length)
  rw [verifyFuel]
  omega

theorem entries_lt_verifyFuel (proof : MultiProof) (k : Path) : proof.entries.length < verifyFuel proof k := by
  have := Nat.le_mul_of_pos_left (proof.entries.length + 1) (Nat.add_one_pos k.length)
  rw [verifyFuel]
  omega

/-- A key of the right length. -/
theorem verifyKey_ok (root : Felt) (hst : Checked proof H st) (hk : k.length = treeHeight.toNat) :
    ∃ r st', verifyKey proof H root treeHeight k st = leaving r st' ∧ Checked proof H st' ∧
      Ends proof H k (verifyFuel proof k) [] root r := by
  obtain ⟨r, st', hrun, hst', hends⟩ := verifyLoop_ok treeHeight (verifyFuel proof k) root
    { st with currentPath := [] } hst rfl (List.nil_prefix (l := k))
  refine ⟨r, st', ?_, hst', hends⟩
  rw [verifyKey, if_neg (by simpa using hk)]
  exact (bind_ok (modify_run _ _) _).trans hrun

/-- A key of another length is refused. -/
theorem verifyKey_keyLength (hk : k.length ≠ treeHeight.toNat) :
    verifyKey proof H root treeHeight k st =
      leaving (.error (.error (.keyLengthMismatch k treeHeight k.length))) st := by
  rw [verifyKey, if_pos hk]
  rfl

/-- What is checked of one key holds of every key of a list that yields a value. -/
theorem verifyKeys_getElem {keys : List BitSlice} (hst : Checked proof H st) {i : Nat} {key : BitSlice}
    {result : Except VerifyFailure Felt} (hkey : keys[i]? = some key)
    (hr : (verifyKeys proof H root treeHeight keys st)[i]? = some result) :
    ∃ st' st'', Checked proof H st' ∧ verifyKey proof H root treeHeight key.bits st' = leaving result st'' := by
  induction keys generalizing st i with
  | nil => cases hkey
  | cons k keys ih =>
    obtain ⟨r, st', hrun, hst'⟩ : ∃ r st', verifyKey proof H root treeHeight k.bits st = leaving r st' ∧ Checked proof H st' := by
      by_cases hk : k.bits.length = treeHeight.toNat
      · obtain ⟨r, st', hrun, hst', -⟩ := verifyKey_ok root hst hk
        exact ⟨r, st', hrun, hst'⟩
      · exact ⟨_, st, verifyKey_keyLength hk, hst⟩
    rw [verifyKeys, hrun] at hr
    cases i with
    | zero =>
      obtain rfl := Option.some.inj hkey
      refine ⟨st, st', hst, ?_⟩
      rcases r with (e | _ | _) | v <;> rw [hrun] <;> exact congrArg (leaving · st') (Option.some.inj hr)
    | succ i =>
      rcases r with (e | _ | _) | v
      · exact ih hst' hkey hr
      · cases hr
      · cases hr
      · exact ih hst' hkey hr

/-! ## Walks along a trie -/

/-- The steps of a walk are steps. -/
theorem reached_of_walk {i : Nat} {a b : Path × Felt} (h : walk proof H k i a = some b) :
    ReflTransGen (fun a b => walkStep proof H k a = some b) a b := by
  induction i generalizing a with
  | zero => cases h; exact .refl
  | succ i ih =>
    obtain ⟨c, hc, hcb⟩ := Option.bind_eq_some_iff.mp h
    exact .head hc (ih hcb)

/-- The nodes of a map with the right hash, where a trie has a node with that hash, are the trie's. -/
def Honest (proof : MultiProof) (H : StarkHash) (t : Trie Felt) : Prop :=
  ∀ felt node p s, proof.lookup felt = some node → node.hash H = some felt → t.sub p = some s → ¬ s.IsLeaf →
    merkleHash H s = felt → proofNodeOf H s = some node

variable {t : Trie Felt}

/-- The felt reached at a path is the hash of the subtrie there. -/
def Follows (H : StarkHash) (k : Path) (t : Trie Felt) (a : Path × Felt) : Prop :=
  a.1 <+: k ∧ ∃ s, t.sub a.1 = some s ∧ merkleHash H s = a.2

theorem WF.not_isLeaf_of_sub (ht : t.WF k.length) {s : Trie Felt} (hs : t.sub p = some s) (hlt : p.length < k.length) :
    ¬ s.IsLeaf := by
  obtain ⟨m, hm, hw⟩ := ht.sub hs
  exact hw.not_isLeaf (by omega)

/-- A step follows the trie. -/
theorem Follows.step (ht : t.WF k.length) (hproof : Honest proof H t) {a b : Path × Felt} (h : Follows H k t a)
    (hstep : walkStep proof H k a = some b) : Follows H k t b ∧ a.1.length < b.1.length := by
  obtain ⟨p, felt⟩ := a
  obtain ⟨hp, s, hs, hfelt⟩ := h
  simp only at hp hs hfelt
  rw [walkStep] at hstep
  split at hstep
  · cases hstep
  rename_i hlt
  split at hstep
  · cases hstep
  rename_i node hl
  split at hstep
  · cases hstep
  rename_i hh
  have hnode := hproof felt node p s hl (not_not.mp hh) hs (WF.not_isLeaf_of_sub ht hs (by omega)) hfelt
  cases s with
  | leaf v => cases hnode
  | binary l r =>
    obtain rfl := Option.some.inj hnode
    obtain ⟨bit, hbit, rfl⟩ := Option.map_eq_some_iff.mp hstep
    have hpre : p ++ [bit] <+: k := by
      rw [List.prefix_iff_eq_take, List.length_append, List.length_singleton, List.take_add_one, hbit,
        ← List.prefix_iff_eq_take.mp hp]
      rfl
    refine ⟨⟨hpre, if bit then r else l, ?_, ?_⟩, by simp⟩
    · rw [ht.sub_append hs]
      cases bit <;> exact Trie.sub_nil _
    · cases bit <;> rfl
  | edge q c =>
    obtain rfl := Option.some.inj hnode
    simp only at hstep
    split at hstep
    · rename_i hpre
      obtain rfl := Option.some.inj hstep
      obtain ⟨m, -, hw⟩ := ht.sub hs
      obtain ⟨-, -, hq, -⟩ := hw.edge_inv
      refine ⟨⟨hpre, c, ?_, rfl⟩, ?_⟩
      · have hsub := Trie.sub_edge_append c [] hq
        rw [List.append_nil, Trie.sub_nil] at hsub
        rw [ht.sub_append hs, hsub]
      · have := List.length_pos_of_ne_nil hq
        simp only [List.length_append]
        omega
    · cases hstep

/-- So does a walk, and it cannot go on for ever. -/
theorem Follows.walk (ht : t.WF k.length) (hproof : Honest proof H t) {i : Nat} {a b : Path × Felt} (h : Follows H k t a)
    (hwalk : walk proof H k i a = some b) : Follows H k t b ∧ a.1.length + i ≤ b.1.length := by
  induction i generalizing a with
  | zero => cases hwalk; exact ⟨h, le_rfl⟩
  | succ i ih =>
    obtain ⟨c, hc, hcb⟩ := Option.bind_eq_some_iff.mp hwalk
    obtain ⟨hf, hlt⟩ := h.step ht hproof hc
    obtain ⟨hf', hle⟩ := ih hf hcb
    exact ⟨hf', by omega⟩

/-- A value that the verification of a key yields is that of the trie. -/
theorem Follows.value (ht : t.WF k.length) (hproof : Honest proof H t) (h : Follows H k t (p, felt)) {v : Felt}
    (hfin : Final proof H k p felt (.ok v)) : v = (t.lookup k).getD 0 := by
  obtain ⟨hp, s, hs, hfelt⟩ := h
  simp only at hp hs hfelt
  obtain ⟨m, hm, hw⟩ := ht.sub hs
  cases hfin with
  | value hlen =>
    obtain rfl := hp.eq_of_length hlen
    obtain ⟨w, rfl⟩ := (show s.WF 0 by rw [show m = 0 by omega] at hw; exact hw).eq_leaf
    rw [ht.lookup_eq_some_iff.mpr hs]
    exact hfelt.symm
  | @leaves child path hlt hl hh hoff =>
    have hnode := hproof felt _ p s hl hh hs (hw.not_isLeaf (by omega)) hfelt
    cases s with
    | leaf v => cases hnode
    | binary l r => cases hnode
    | edge q c =>
      obtain ⟨r, rfl⟩ := hp
      cases hnode
      rw [ht.lookup_append hs, Trie.lookup_edge, if_neg fun hq => hoff ((List.prefix_append_right_inj p).mpr hq)]
      rfl

end MultiProof

/-! ## Soundness -/

section

variable {H : StarkHash} {n : Nat} {t s : Trie Felt}

/-- The node of a proof hashes to the hash of the trie it stands for. -/
theorem hash_proofNodeOf (hw : s.WF n) (hn : n ≤ 256) {pn : ProofNode} (h : proofNodeOf H s = some pn) :
    pn.hash H = some (merkleHash H s) := by
  cases s with
  | leaf v => cases h
  | binary l r => cases h; rfl
  | edge q c =>
    cases h
    obtain ⟨m, hm, -⟩ := hw.edge_inv
    exact hashEdgeNode_eq H _ (by omega)

theorem merkleRoot_ofMap {M : Path → Option Felt} (ht : ofMap n M = some t) : merkleRoot H n M = merkleHash H t := by
  have hspec := ofMap_spec n M
  rw [ht] at hspec
  exact hspec.1.mapDigest_eq _ _ _ _ hspec.2

/-- No node of the map has the hash of another node of the trie. -/
def NoForgery (H : StarkHash) (proof : MultiProof) (t : Trie Felt) : Prop :=
  ∀ felt node, proof.lookup felt = some node → ∀ p s pn, t.sub p = some s → proofNodeOf H s = some pn →
    node.hash H = pn.hash H → node = pn

theorem NoForgery.honest {proof : MultiProof} (h : NoForgery H proof t) (ht : t.WF n) (hn : n ≤ 256) : proof.Honest H t := by
  intro felt node p s hl hh hs hleaf hfelt
  obtain ⟨m, hm, hw⟩ := ht.sub hs
  obtain ⟨pn, hpn⟩ := proofNodeOf_isSome (H := H) hleaf
  rw [h felt node hl p s pn hs hpn (by rw [hh, hash_proofNodeOf hw (by omega) hpn, hfelt]), hpn]

/-- A value that a verification yields is that of the map whose root it is checked against, and zero
if the map has none. -/
theorem verifyProof_sound (H : StarkHash) (m : UInt8) (M : Path → Option Felt)
    (hM : ∃ k : Path, k.length = m.toNat ∧ (M k).isSome) (proof : MultiProof)
    (hproof : ∀ t, ofMap m.toNat M = some t → NoForgery H proof t) (keys : List BitSlice) (i : Nat) (key : BitSlice)
    (v : Felt) (hkey : keys[i]? = some key)
    (hv : (proof.verifyProof H (merkleRoot H m.toNat M) keys m)[i]? = some (.ok v)) : v = (M key.bits).getD 0 := by
  have hspec := ofMap_spec m.toNat M
  cases ht : ofMap m.toNat M with
  | none =>
    rw [ht] at hspec
    obtain ⟨k, hk, hs⟩ := hM
    rw [hspec k hk] at hs
    cases hs
  | some t =>
    rw [ht] at hspec
    obtain ⟨st, st', hst, hrun⟩ := MultiProof.verifyKeys_getElem (MultiProof.checked_start proof H) hkey hv
    have hlen : key.bits.length = m.toNat := by
      by_contra hne
      rw [MultiProof.verifyKey_keyLength hne] at hrun
      cases hrun
    have hw : t.WF key.bits.length := by rw [hlen]; exact hspec.1
    have hh : proof.Honest H t := (hproof t ht).honest hw (by have := UInt8.toNat_lt m; omega)
    obtain ⟨r, st'', hrun', -, hends⟩ := MultiProof.verifyKey_ok (merkleRoot H m.toNat M) hst hlen
    obtain rfl : r = .ok v := by
      rw [hrun'] at hrun
      rcases r with e | w <;> cases hrun
      rfl
    rcases hends with ⟨i, p, felt, hwalk, hfin⟩ | ⟨hr, -⟩
    · have hroot : MultiProof.Follows H key.bits t ([], merkleRoot H m.toNat M) :=
        ⟨List.nil_prefix, t, Trie.sub_nil t, (merkleRoot_ofMap ht).symm⟩
      rw [(hroot.walk hw hh hwalk).1.value hw hh hfin, hspec.2 key.bits hlen]
    · cases hr

/-- The nodes of two leaves that part at their last bit, and one that is no node of theirs. -/
def pairProof : MultiProof := ((AList.insert 7 (.binary 3 4) ∅).insert 3 (.binary 1 2)).insert 5 (.edge 3 [true])

theorem pairProof_nodes {felt : Felt} {node : ProofNode} (h : pairProof.lookup felt = some node) :
    node = .edge 3 [true] ∨ node = .binary 1 2 ∨ node = .binary 3 4 := by
  by_cases h₅ : felt = 5
  · subst h₅
    exact .inl (Option.some.inj (h.symm.trans (AList.lookup_insert _)))
  rw [pairProof, AList.lookup_insert_ne h₅] at h
  by_cases h₃ : felt = 3
  · subst h₃
    exact .inr (.inl (Option.some.inj (h.symm.trans (AList.lookup_insert _))))
  rw [AList.lookup_insert_ne h₃] at h
  by_cases h₇ : felt = 7
  · subst h₇
    exact .inr (.inr (Option.some.inj (h.symm.trans (AList.lookup_insert _))))
  rw [AList.lookup_insert_ne h₇] at h
  cases h

theorem pairProof_noForgery : NoForgery (fun a b => a + b) pairProof pairTrie := by
  intro felt node hl p s pn hs hpn hhash
  have hleaf : ¬ s.IsLeaf := fun h => by
    cases s with
    | leaf v => cases hpn
    | binary l r => exact h
    | edge q c => exact h
  rcases pairTrie_nodes hs hleaf with rfl | rfl <;> obtain rfl := Option.some.inj hpn <;>
    rcases pairProof_nodes hl with rfl | rfl | rfl
  · rfl
  · exact absurd hhash (by decide +kernel)
  · exact absurd hhash (by decide +kernel)
  · exact absurd hhash (by decide +kernel)
  · rfl
  · exact absurd hhash (by decide +kernel)

theorem ofMap_pairTrie : ofMap 2 pairTrie.lookup = some pairTrie := pairTrie_wf.ofMap_eq fun _ _ => rfl

theorem verifyProof_sound_pair :
    pairProof.verifyProof (fun a b => a + b) (merkleRoot (fun a b => a + b) 2 pairTrie.lookup) pairKeys 2 =
        [.ok 2, .ok 0, .ok 2] ∧ (pairTrie.lookup [true, true]).getD 0 = 2 := by
  have hrun : pairProof.verifyProof (fun a b => a + b) (merkleRoot (fun a b => a + b) 2 pairTrie.lookup) pairKeys 2 =
      [.ok 2, .ok 0, .ok 2] := by
    rw [merkleRoot_ofMap ofMap_pairTrie]
    decide +kernel
  refine ⟨hrun, ?_⟩
  exact (verifyProof_sound (fun a b => a + b) 2 pairTrie.lookup ⟨[true, true], rfl, rfl⟩ pairProof
    (fun t ht => by rw [Option.some.inj (ht.symm.trans ofMap_pairTrie)]; exact pairProof_noForgery)
    pairKeys 0 (.aligned [true, true]) 2 rfl (by rw [show UInt8.toNat 2 = 2 from rfl, hrun]; rfl)).symm

/-! ## Completeness -/

/-- The map has the nodes of the trie on the way to a key. -/
def Shows (H : StarkHash) (proof : MultiProof) (t : Trie Felt) (k : Path) : Prop :=
  ∀ p s pn, p <+: k → t.sub p = some s → proofNodeOf H s = some pn → proof.lookup (merkleHash H s) = some pn

/-- A key the map shows the way to is verified. -/
theorem verifyKey_shown {proof : MultiProof} {m : UInt8} {k : Path} {st : VerifyState} (hst : proof.Checked H st)
    (hk : k.length = m.toNat) (ht : t.WF k.length) (hh : proof.Honest H t) (hshow : Shows H proof t k) :
    ∃ st', proof.verifyKey H (merkleHash H t) m k st = .ok ((t.lookup k).getD 0) st' ∧ proof.Checked H st' := by
  obtain ⟨r, st', hrun, hst', hends⟩ := MultiProof.verifyKey_ok (merkleHash H t) hst hk
  have hroot : MultiProof.Follows H k t ([], merkleHash H t) := ⟨List.nil_prefix, t, Trie.sub_nil t, rfl⟩
  have hle : k.length ≤ 255 := by have := UInt8.toNat_lt m; omega
  refine ⟨st', ?_, hst'⟩
  rcases hends with ⟨i, p, felt, hwalk, hfin⟩ | ⟨-, hgo⟩
  · have hfol := (hroot.walk ht hh hwalk).1
    -- the node the walk is at is in the map, with its hash
    have hnode (hlt : p.length < k.length) : ∃ pn, proof.lookup felt = some pn ∧ pn.hash H = some felt := by
      obtain ⟨hp, s, hs, hfelt⟩ := hfol
      simp only at hp hs hfelt
      obtain ⟨j, hj, hw⟩ := ht.sub hs
      obtain ⟨pn, hpn⟩ := proofNodeOf_isSome (H := H) (hw.not_isLeaf (by omega))
      rw [← hfelt]
      exact ⟨pn, hshow p s pn hp hs hpn, hash_proofNodeOf hw (by omega) hpn⟩
    rw [hrun]
    cases r with
    | ok v => rw [← hfol.value ht hh hfin]; rfl
    | error e =>
      cases hfin with
      | missing hlt hl =>
        obtain ⟨pn, hpn, -⟩ := hnode hlt
        rw [hl] at hpn
        cases hpn
      | panic hlt hl hnone =>
        obtain ⟨pn, hpn, hhash⟩ := hnode hlt
        obtain rfl := Option.some.inj (hl.symm.trans hpn)
        rw [hnone] at hhash
        cases hhash
      | mismatch hlt hl hhash hne =>
        obtain ⟨pn, hpn, hhash'⟩ := hnode hlt
        obtain rfl := Option.some.inj (hl.symm.trans hpn)
        exact (hne (Option.some.inj (hhash.symm.trans hhash'))).elim
  · -- every step of the walk goes down
    obtain ⟨b, hb⟩ := Option.isSome_iff_exists.mp hgo
    obtain ⟨⟨hpre, -⟩, hlen⟩ := hroot.walk ht hh hb
    have := hpre.length_le
    have := MultiProof.length_lt_verifyFuel proof k
    simp only [List.length_nil] at hlen
    omega

theorem verifyKeys_shown {proof : MultiProof} {m : UInt8} {keys : List BitSlice} {st : VerifyState}
    (hst : proof.Checked H st) (hkeys : ∀ key ∈ keys, key.len = m.toNat) (ht : t.WF m.toNat) (hh : proof.Honest H t)
    (hshow : ∀ key ∈ keys, Shows H proof t key.bits) :
    proof.verifyKeys H (merkleHash H t) m keys st = keys.map fun key => .ok ((t.lookup key.bits).getD 0) := by
  induction keys generalizing st with
  | nil => rfl
  | cons key keys ih =>
    obtain ⟨hkey, hkeys⟩ := List.forall_mem_cons.mp hkeys
    obtain ⟨hshow₀, hshow⟩ := List.forall_mem_cons.mp hshow
    obtain ⟨st', hrun, hst'⟩ := verifyKey_shown hst hkey
      (by rw [show key.bits.length = m.toNat from hkey]; exact ht) hh hshow₀
    rw [MultiProof.verifyKeys, hrun]
    exact congrArg _ (ih hst' hkeys hshow)

variable [FeltCodec] {DB ID : Type} [BonsaiDatabase DB] [InfallibleDatabase DB]

/-- The proof of any keys of a tree at rest is verified against its root hash, and yields their values. -/
theorem verifyProof_complete (H : StarkHash) (db : KeyValueDB DB ID) (tree : MerkleTree) (M : Path → Option Felt)
    (t : Trie Felt) (hM : ofMap tree.maxHeight.toNat M = some t) (h : AtRest H db.columns tree t)
    (hpos : 0 < tree.maxHeight.toNat) (hcol : NoCollision H t) (before : List (List BitSlice)) (keys : List BitSlice)
    (hkeys : ∀ key ∈ keys, key.len = tree.maxHeight.toNat) :
    ∃ root proof tree', MerkleTree.rootHash db tree = .ok root ∧
      MerkleTree.getMultiProof H db keys (Trace.after (MerkleTree.getMultiProof H db) before tree) = .ok proof tree' ∧
      proof.verifyProof H root keys tree.maxHeight = keys.map fun key => .ok ((M key.bits).getD 0) := by
  have hspec := ofMap_spec tree.maxHeight.toNat M
  rw [hM] at hspec
  have hle : tree.maxHeight.toNat ≤ 255 := by have := UInt8.toNat_lt tree.maxHeight; omega
  obtain ⟨proof, nodes, root, hrun, hproof⟩ := (h.after_proofs hpos before).getMultiProof_lookup hpos hcol hkeys
  have hhonest : proof.Honest H t := by
    intro felt node p s hl hh hs hleaf hfelt
    obtain ⟨key, -, s', hs', rfl, hpn⟩ := (hproof felt node).mp hl
    obtain ⟨q, -, hq, hleaf'⟩ := h.wf.mem_search_iff.mp hs'
    rw [hcol p q s s' hs hq hleaf hleaf' hfelt, hpn]
  have hshow : ∀ key ∈ keys, Shows H proof t key.bits := by
    intro key hkey p s pn hp hs hpn
    have hleaf : ¬ s.IsLeaf := by
      intro hleaf
      cases s with
      | leaf v => cases hpn
      | binary l r => exact hleaf
      | edge q c => exact hleaf
    exact (hproof (merkleHash H s) pn).mpr ⟨key, hkey, s, h.wf.mem_search_iff.mpr ⟨p, hp, hs, hleaf⟩, rfl, hpn⟩
  refine ⟨merkleHash H t, proof, _, ?_, hrun, ?_⟩
  · have hR : TreeRep H (trueMemo H) _ db.columns tree (some t) := h.treeRep
    exact hR.rootHash_ok hpos h.idle.root
  · rw [MultiProof.verifyProof, verifyKeys_shown (MultiProof.checked_start proof H) hkeys h.wf hhonest hshow]
    refine List.map_congr_left fun key hkey => ?_
    rw [hspec.2 key.bits (hkeys key hkey)]

end

theorem verifyProof_complete_pair :
    ∃ root proof tree', MerkleTree.rootHash pairStorage.db (pairStorage.treeOf []) = .ok root ∧
      MerkleTree.getMultiProof (fun a b => a + b) pairStorage.db pairKeys (pairStorage.treeOf []) = .ok proof tree' ∧
      proof.verifyProof (fun a b => a + b) root pairKeys (pairStorage.treeOf []).maxHeight =
        pairKeys.map fun key => .ok ((pairTrie.lookup key.bits).getD 0) := by
  obtain ⟨root, proof, tree', hroot, hrun, hverify⟩ := verifyProof_complete (fun a b => a + b) pairStorage.db
    (pairStorage.treeOf []) pairTrie.lookup pairTrie (by rw [pairStorage_height]; exact ofMap_pairTrie) pairStorage_atRest
    pairStorage_pos pairTrie_noCollision [] pairKeys pairKeys_len
  rw [Trace.after_nil] at hrun
  exact ⟨root, proof, tree', hroot, hrun, hverify⟩

end Bonsai
