import BonsaiTrie.Proof.Verify

/-!
# How verifications end

A verification of a map without cycles ends at the one felt where its walk
stops (`resultOf_final`). It ends as it should if and only if the walk reaches
no edge past the height of the tree and no zero that has no node; from a root
of zero, only if it happens to find a zero there (`resultOf_classified_iff`).
-/

namespace Bonsai

open Run Relation

namespace MultiProof

variable {proof : MultiProof} {H : StarkHash} {k p : Path} {felt root : Felt} {treeHeight : UInt8}
  {r : Except VerifyFailure Felt}

/-! ## Termination -/

/-- A step goes along a link. -/
theorem link_of_walkStep {a b : Path × Felt} (h : walkStep proof H k a = some b) : Link proof H a.2 b.2 := by
  obtain ⟨p, felt⟩ := a
  rw [walkStep] at h
  split at h
  · cases h
  split at h
  · cases h
  rename_i node hl
  split at h
  · cases h
  rename_i hh
  refine ⟨node, hl, not_not.mp hh, ?_⟩
  cases node with
  | binary left right =>
    obtain ⟨bit, -, rfl⟩ := Option.map_eq_some_iff.mp h
    cases bit
    · exact .inl rfl
    · exact .inr rfl
  | edge child path =>
    simp only at h
    split at h
    · cases h; rfl
    · cases h

/-- A walk without cycles passes every node of the map at most once. -/
theorem walk_eq_none (hac : Acyclic proof H) (i : Nat) (a : Path × Felt) (visited : List Felt) (hnodup : visited.Nodup)
    (hv : ∀ felt ∈ visited, felt ∈ proof.keys ∧ TransGen (Link proof H) felt a.2)
    (hi : proof.keys.length < i + visited.length) : walk proof H k i a = none := by
  induction i generalizing a visited with
  | zero =>
    have := (hnodup.subperm fun felt hf => (hv felt hf).1).length_le
    omega
  | succ i ih =>
    cases hstep : walkStep proof H k a with
    | none => rw [walk, hstep]; rfl
    | some b =>
      have hlink := link_of_walkStep hstep
      obtain ⟨node, hl, -⟩ := link_of_walkStep hstep
      rw [walk, hstep, Option.bind_some]
      refine ih b (a.2 :: visited) (List.nodup_cons.mpr ⟨fun hmem => hac a.2 (hv a.2 hmem).2, hnodup⟩)
        (List.forall_mem_cons.mpr ⟨⟨?_, .single hlink⟩, fun felt hf => ⟨(hv felt hf).1, (hv felt hf).2.tail hlink⟩⟩) ?_
      · exact AList.mem_keys.mp (AList.lookup_isSome.mp (by rw [hl]; rfl))
      · simp only [List.length_cons]
        omega

/-- The path of a felt that is reached is one of the key. -/
theorem Reached.along (h : Reached proof H k root p felt) : p <+: k := by
  suffices ∀ a, ReflTransGen (fun a b => walkStep proof H k a = some b) ([], root) a → a.1 <+: k from this _ h
  intro a ha
  induction ha with
  | refl => exact List.nil_prefix
  | @tail a b _ hstep ih =>
    obtain ⟨p, felt⟩ := a
    rw [walkStep] at hstep
    split at hstep
    · cases hstep
    split at hstep
    · cases hstep
    split at hstep
    · cases hstep
    split at hstep
    · obtain ⟨bit, hbit, rfl⟩ := Option.map_eq_some_iff.mp hstep
      rw [List.prefix_iff_eq_take, List.length_append, List.length_singleton, List.take_add_one, hbit,
        ← List.prefix_iff_eq_take.mp ih]
      rfl
    · split at hstep
      · rename_i hpre
        obtain rfl := Option.some.inj hstep
        exact hpre
      · cases hstep

/-- The verifications of other keys leave only felts that were checked. -/
theorem checked_after (proof : MultiProof) (H : StarkHash) (root : Felt) (treeHeight : UInt8) (before : List Path) :
    Checked proof H (Trace.after (verifyKey proof H root treeHeight) before ⟨∅, []⟩) := by
  refine Trace.invariant (I := Checked proof H) (fun st key hst _ => ?_) (checked_start proof H)
    (Trace.meets_of_forall (Q := fun _ => True) fun _ _ => trivial)
  by_cases hk : key.length = treeHeight.toNat
  · obtain ⟨r, st', hrun, hst', -⟩ := verifyKey_ok root hst hk
    rw [Trace.next_of hrun]
    exact hst'
  · rw [Trace.next_of (verifyKey_keyLength hk)]
    exact hst

/-- Where the verification of a key ends. -/
theorem resultOf_final (hac : Acyclic proof H) (hk : k.length = treeHeight.toNat) (root : Felt) (before : List Path) :
    ∃ p felt, Reached proof H k root p felt ∧ Final proof H k p felt (resultOf proof H k root treeHeight before) := by
  obtain ⟨r, st', hrun, -, hends⟩ := verifyKey_ok root (checked_after proof H root treeHeight before) hk
  have hr : resultOf proof H k root treeHeight before = r := Trace.answer_of hrun
  rw [hr]
  rcases hends with ⟨i, p, felt, hwalk, hfin⟩ | ⟨-, hgo⟩
  · exact ⟨p, felt, reached_of_walk hwalk, hfin⟩
  · rw [walk_eq_none hac (verifyFuel proof k) ([], root) [] List.nodup_nil nofun] at hgo
    · cases hgo
    · have := entries_lt_verifyFuel proof k
      rw [AList.keys, List.keys, List.length_map]
      simpa using this

/-! ## The felt where the walk stops -/

/-- The walk stops at one felt only. -/
theorem Reached.unique {p' : Path} {felt' : Felt} (h : Reached proof H k root p felt) (h' : Reached proof H k root p' felt')
    (hstop : walkStep proof H k (p, felt) = none) (hstop' : walkStep proof H k (p', felt') = none) :
    p' = p ∧ felt' = felt := by
  have hright : Relator.RightUnique fun a b : Path × Felt => walkStep proof H k a = some b := by
    intro a b c hb hc
    exact Option.some.inj (hb.symm.trans hc)
  rcases ReflTransGen.total_of_right_unique hright h h' with hpath | hpath
  · rcases ReflTransGen.cases_head hpath with heq | ⟨c, hc, -⟩
    · exact ⟨congrArg Prod.fst heq.symm, congrArg Prod.snd heq.symm⟩
    · rw [hstop] at hc; cases hc
  · rcases ReflTransGen.cases_head hpath with heq | ⟨c, hc, -⟩
    · exact ⟨congrArg Prod.fst heq, congrArg Prod.snd heq⟩
    · rw [hstop'] at hc; cases hc

theorem walkStep_of_end (h : k.length ≤ p.length) : walkStep proof H k (p, felt) = none := by
  rw [walkStep, if_pos h]

theorem walkStep_of_missing (hl : proof.lookup felt = none) : walkStep proof H k (p, felt) = none := by
  simp [walkStep, hl]

theorem walkStep_of_hash {node : ProofNode} (hl : proof.lookup felt = some node) (hh : node.hash H ≠ some felt) :
    walkStep proof H k (p, felt) = none := by
  simp [walkStep, hl, hh]

theorem walkStep_of_off {child : Felt} {path : Path} (hl : proof.lookup felt = some (.edge child path))
    (hoff : ¬ p ++ path <+: k) : walkStep proof H k (p, felt) = none := by
  simp [walkStep, hl, hoff]

/-- The walk stops where the verification ends. -/
theorem Final.stops (h : Final proof H k p felt r) : walkStep proof H k (p, felt) = none := by
  cases h with
  | value hlen => exact walkStep_of_end hlen.ge
  | missing _ hl => exact walkStep_of_missing hl
  | panic _ hl hh => exact walkStep_of_hash hl (by rw [hh]; nofun)
  | mismatch _ hl hh hne => exact walkStep_of_hash hl (by rw [hh]; simpa using hne)
  | leaves _ hl _ hoff => exact walkStep_of_off hl hoff

/-- It ends there in one way only. -/
theorem Final.unique {r' : Except VerifyFailure Felt} (h : Final proof H k p felt r) (h' : Final proof H k p felt r') : r = r' := by
  have hhash {node node' : ProofNode} {a b : Option Felt} (hl : proof.lookup felt = some node)
      (hl' : proof.lookup felt = some node') (ha : node.hash H = a) (hb : node'.hash H = b) : a = b := by
    rw [← ha, ← hb, Option.some.inj (hl.symm.trans hl')]
  cases h with
  | value hlen =>
    cases h' with
    | value _ => rfl
    | missing hlt _ => omega
    | panic hlt _ _ => omega
    | mismatch hlt _ _ _ => omega
    | leaves hlt _ _ _ => omega
  | missing hlt hl =>
    cases h' with
    | value hlen => omega
    | missing _ _ => rfl
    | panic _ hl' _ => rw [hl] at hl'; cases hl'
    | mismatch _ hl' _ _ => rw [hl] at hl'; cases hl'
    | leaves _ hl' _ _ => rw [hl] at hl'; cases hl'
  | panic hlt hl hh =>
    cases h' with
    | value hlen => omega
    | missing _ hl' => rw [hl] at hl'; cases hl'
    | panic _ _ _ => rfl
    | mismatch _ hl' hh' _ => cases hhash hl hl' hh hh'
    | leaves _ hl' hh' _ => cases hhash hl hl' hh hh'
  | mismatch hlt hl hh hne =>
    cases h' with
    | value hlen => omega
    | missing _ hl' => rw [hl] at hl'; cases hl'
    | panic _ hl' hh' => cases hhash hl hl' hh hh'
    | mismatch _ hl' hh' _ => cases hhash hl hl' hh hh'; rfl
    | leaves _ hl' hh' _ => exact (hne (Option.some.inj (hhash hl hl' hh hh'))).elim
  | leaves hlt hl hh hoff =>
    cases h' with
    | value hlen => omega
    | missing _ hl' => rw [hl] at hl'; cases hl'
    | panic _ hl' hh' => cases hhash hl hl' hh hh'
    | mismatch _ hl' hh' hne => exact (hne (Option.some.inj (hhash hl' hl hh' hh))).elim
    | leaves _ _ _ _ => rfl

/-! ## Classification -/

/-- What the walk must find for the verification to end as it should: from a root of zero, a zero or an
edge that leaves the key; from another root, no edge past the height of the tree and no zero without a
node. -/
structure Covered (proof : MultiProof) (H : StarkHash) (k : Path) (root : Felt) : Prop where
  empty : root = 0 → Reached proof H k root k 0 ∨ ∃ p felt child path, ReachedNode proof H k root p felt (.edge child path) ∧
    hashEdgeNode H path child = some felt ∧ ¬ p ++ path <+: k
  overlong : root ≠ 0 → ¬ ReachesOverlong proof H k root
  zero : root ≠ 0 → ∀ p, Reached proof H k root p 0 → p.length < k.length → proof.lookup 0 ≠ none

/-- The verification ends as it should where it ends. -/
theorem Final.classified (hk : k.length ≤ 256) (hreach : Reached proof H k root p felt) (hfin : Final proof H k p felt r)
    (hc : Covered proof H k root) : Classified proof H k root r := by
  -- what stops the walk is at the felt where it ends, and ends it
  have hend {p' : Path} {felt' : Felt} {r' : Except VerifyFailure Felt} (h : Reached proof H k root p' felt')
      (hf : Final proof H k p' felt' r') : r = r' := by
    obtain ⟨rfl, rfl⟩ := hreach.unique h hfin.stops hf.stops
    exact hfin.unique hf
  have hempty (h0 : root = 0) : r = .ok 0 := by
    rcases hc.empty h0 with h | ⟨p', felt', child, path, ⟨h, hlt, hl⟩, hh, hoff⟩
    · exact hend h (.value rfl)
    · exact hend h (.leaves hlt hl hh hoff)
  refine ⟨?_, hempty, fun h0 => ⟨?_, ?_⟩, fun h0 => ⟨?_, ?_⟩, fun h0 => ⟨?_, fun h => (hc.overlong h0 h).elim⟩, ?_, ?_⟩
  · cases hfin with
    | value _ => exact .inl ⟨_, rfl⟩
    | missing _ _ => exact .inr ⟨_, rfl⟩
    | mismatch _ _ _ _ => exact .inr ⟨_, rfl⟩
    | leaves _ _ _ _ => exact .inl ⟨_, rfl⟩
    | @panic node hlt hl hh =>
      -- only an edge of more than 256 bits has no hash
      by_cases h0 : root = 0
      · cases hempty h0
      · cases node with
        | binary left right => cases hh
        | edge child path =>
          refine (hc.overlong h0 ⟨p, felt, child, path, ⟨hreach, hlt, hl⟩, .inr hh, ?_⟩).elim
          by_contra hle
          rw [ProofNode.hash, hashEdgeNode_eq H child (by omega)] at hh
          cases hh
  · rintro ⟨p', expected, got, rfl⟩
    cases hfin with
    | mismatch hlt hl hh hne => exact ⟨p, felt, _, _, ⟨hreach, hlt, hl⟩, hh, hne⟩
  · rintro ⟨p', felt', node, hash, ⟨h, hlt, hl⟩, hh, hne⟩
    exact ⟨_, _, _, hend h (.mismatch hlt hl hh hne)⟩
  · rintro ⟨p', hash, rfl⟩
    cases hfin with
    | missing hlt hl => exact ⟨p, felt, hreach, hlt, hl, fun hz => hc.zero h0 p (hz ▸ hreach) hlt (hz ▸ hl)⟩
  · rintro ⟨p', felt', h, hlt, hl, -⟩
    exact ⟨_, _, hend h (.missing hlt hl)⟩
  · rintro ⟨p', height, rfl⟩
    cases hfin
  · rintro - ⟨p', felt', child, path, ⟨h, hlt, hl⟩, hh, -, hoff⟩
    exact hend h (.leaves hlt hl hh hoff)
  · intro _ felt' h
    exact hend h (.value rfl)

/-- The verification of a key ends as it should exactly where what its walk finds is covered. -/
theorem resultOf_classified_iff (proof : MultiProof) (H : StarkHash) (root : Felt) (treeHeight : UInt8) (before : List Path)
    (k : Path) (hk : k.length = treeHeight.toNat) (hac : Acyclic proof H) :
    Classified proof H k root (resultOf proof H k root treeHeight before) ↔ Covered proof H k root := by
  obtain ⟨p, felt, hreach, hfin⟩ := resultOf_final hac hk root before
  refine ⟨fun hc => ⟨fun h0 => ?_, fun h0 hover => ?_, fun h0 p' hp' hlt hl => ?_⟩, hfin.classified ?_ hreach⟩
  · rw [hc.empty h0] at hfin
    cases hfin with
    | value hlen => exact .inl (hreach.along.eq_of_length hlen ▸ hreach)
    | leaves hlt hl hh hoff => exact .inr ⟨p, felt, _, _, ⟨hreach, hlt, hl⟩, hh, hoff⟩
  · -- the walk never passes the end of the key, so nothing overshoots
    obtain ⟨p', height, hr⟩ := (hc.overshot h0).mpr hover
    rw [hr] at hfin
    cases hfin
  · -- a zero without a node is reported as missing
    obtain ⟨rfl, rfl⟩ := hreach.unique hp' hfin.stops (walkStep_of_missing hl)
    have hr := hfin.unique (.missing hlt hl)
    obtain ⟨q, felt', hq, hlt', hl', hne⟩ := (hc.missingNode h0).mp ⟨_, _, hr⟩
    exact hne (hreach.unique hq hfin.stops (walkStep_of_missing hl')).2
  · have := UInt8.toNat_lt treeHeight
    omega

/-- A map with one edge, that goes past the height of a tree of one bit. -/
def overlongProof : MultiProof := AList.insert 3 (.edge 1 [false, false]) ∅

theorem overlongProof_acyclic : Acyclic overlongProof fun a b => a + b := by
  have hlink {a b : Felt} (h : Link overlongProof (fun a b => a + b) a b) : a = 3 ∧ b = 1 := by
    obtain ⟨node, hl, -, hb⟩ := h
    by_cases ha : a = 3
    · subst ha
      rw [overlongProof, AList.lookup_insert] at hl
      obtain rfl := Option.some.inj hl
      exact ⟨rfl, hb⟩
    · rw [overlongProof, AList.lookup_insert_ne ha] at hl
      cases hl
  intro felt h
  obtain ⟨b, hfb, hb⟩ := TransGen.tail'_iff.mp h
  have h₁ := (hlink hb).2
  obtain ⟨c, hc, -⟩ := TransGen.head'_iff.mp h
  have h₃ := (hlink hc).1
  rw [h₁] at h₃
  exact absurd h₃ (by decide)

theorem resultOf_classified_iff_edge :
    Classified overlongProof (fun a b => a + b) [false, false] 3 (resultOf overlongProof (fun a b => a + b) [false, false] 3 2 []) ↔
      Covered overlongProof (fun a b => a + b) [false, false] 3 :=
  resultOf_classified_iff overlongProof (fun a b => a + b) 3 2 [] [false, false] (by decide) overlongProof_acyclic

/-- The edge goes past the height of the tree, and the verification says that the key has no value. -/
theorem overshot_not_classified :
    Acyclic overlongProof (fun a b => a + b) ∧
      resultOf overlongProof (fun a b => a + b) [false] 3 1 [] = .ok 0 ∧
      ¬ Classified overlongProof (fun a b => a + b) [false] 3 (resultOf overlongProof (fun a b => a + b) [false] 3 1 []) := by
  have hresult : resultOf overlongProof (fun a b => a + b) [false] 3 1 [] = .ok 0 := by decide +kernel
  refine ⟨overlongProof_acyclic, hresult, fun hc => ?_⟩
  have hover : ReachesOverlong overlongProof (fun a b => a + b) [false] 3 :=
    ⟨[], 3, 1, [false, false], ⟨.refl, by decide, AList.lookup_insert _⟩, .inl (by decide +kernel), by decide⟩
  obtain ⟨p, height, hr⟩ := (hc.overshot (by decide)).mpr hover
  rw [hresult] at hr
  cases hr

end MultiProof

end Bonsai
