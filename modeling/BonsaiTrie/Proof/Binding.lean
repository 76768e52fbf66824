import BonsaiTrie.Framework.PatriciaBind
import BonsaiTrie.Proof.Restart
import BonsaiTrie.Proof.Verify

/-!
# What a root hash binds

Two storages with the same root hash have the same values and the same nodes
and leaves in their databases, unless the hash collides: under one path their
tries have nodes that are not the same and have the same hash, or a trie that
is not empty hashes to zero (`root_binds`).
-/

namespace Bonsai

open Patricia Run

/-- Under one path, the tries of two maps have nodes that are not the same and have the same hash, or one map alone is empty
and the other one has the root zero. -/
def HashCollides (H : StarkHash) (n : Nat) (M M' : Path → Option Felt) : Prop :=
  (∃ p s s' pn pn', (ofMap n M).bind (·.sub p) = some s ∧ (ofMap n M').bind (·.sub p) = some s' ∧
      proofNodeOf H s = some pn ∧ proofNodeOf H s' = some pn' ∧ pn ≠ pn' ∧ pn.hash H = pn'.hash H) ∨
    ((ofMap n M).isSome ≠ (ofMap n M').isSome ∧ merkleRoot H n M = 0 ∧ merkleRoot H n M' = 0)

section

variable {H : StarkHash} {n : Nat} {M M' : Path → Option Felt} {t t' s s' : Trie Felt}

/-- Nodes that are the same in a proof are the same over the hashes below them. -/
theorem top_eq {pn : ProofNode} (hs : proofNodeOf H s = some pn) (hs' : proofNodeOf H s' = some pn) :
    s.top id (hashBinaryNode H) (edgeHash H) = s'.top id (hashBinaryNode H) (edgeHash H) := by
  cases s with
  | leaf v => cases hs
  | binary l r =>
    cases hs
    cases s' with
    | leaf v => cases hs'
    | binary l' r' =>
      obtain ⟨hl, hr⟩ := ProofNode.binary.inj (Option.some.inj hs')
      exact congrArg₂ (fun a b => Trie.binary (.leaf a) (.leaf b)) hl.symm hr.symm
    | edge q c => cases hs'
  | edge q c =>
    cases hs
    cases s' with
    | leaf v => cases hs'
    | binary l r => cases hs'
    | edge q' c' =>
      obtain ⟨hc, hq⟩ := ProofNode.edge.inj (Option.some.inj hs')
      exact congrArg₂ (fun q a => Trie.edge q (.leaf a)) hq.symm hc.symm

/-- A collision of the hashes of two tries is one of nodes of proofs. -/
theorem exists_proofNodes (ht : t.WF n) (ht' : t'.WF n) (hn : n ≤ 255)
    (h : Trie.Collides id (hashBinaryNode H) (edgeHash H) t t') :
    ∃ p s s' pn pn', t.sub p = some s ∧ t'.sub p = some s' ∧
      proofNodeOf H s = some pn ∧ proofNodeOf H s' = some pn' ∧ pn ≠ pn' ∧ pn.hash H = pn'.hash H := by
  obtain ⟨p, s, s', hs, hs', hhash, htop⟩ := h
  obtain ⟨k, hk, hw⟩ := ht.sub hs
  obtain ⟨k', hk', hw'⟩ := ht'.sub hs'
  obtain rfl : k = k' := by omega
  by_cases hzero : k = 0
  · -- leaves with the same hash have the same value
    subst hzero
    obtain ⟨v, rfl⟩ := hw.eq_leaf
    obtain ⟨v', rfl⟩ := hw'.eq_leaf
    exact absurd (congrArg Trie.leaf hhash) htop
  · obtain ⟨pn, hpn⟩ := proofNodeOf_isSome (H := H) (hw.not_isLeaf (Nat.pos_of_ne_zero hzero))
    obtain ⟨pn', hpn'⟩ := proofNodeOf_isSome (H := H) (hw'.not_isLeaf (Nat.pos_of_ne_zero hzero))
    refine ⟨p, s, s', pn, pn', hs, hs', hpn, hpn', fun heq => htop ?_, ?_⟩
    · exact top_eq hpn (heq ▸ hpn')
    · rw [hash_proofNodeOf hw (by omega) hpn, hash_proofNodeOf hw' (by omega) hpn']
      exact congrArg some hhash

/-- An empty map has the root zero. -/
theorem roots_of_vanishes (h : Vanishes 0 id (hashBinaryNode H) (edgeHash H) n M M') :
    (ofMap n M).isSome ≠ (ofMap n M').isSome ∧ merkleRoot H n M = 0 := by
  obtain ⟨hM, t, ht, -⟩ := h
  have hspec := ofMap_spec n M
  rw [hM] at hspec
  refine ⟨?_, mapDigest_of_not_populated _ _ _ _ hspec⟩
  rw [hM, ht]
  exact Bool.false_ne_true

/-- Maps with the same root are equal on their keys, or the hash collides. -/
theorem merkleRoot_binds (hn : n ≤ 255) (h : merkleRoot H n M = merkleRoot H n M') :
    (∀ k, k.length = n → M k = M' k) ∨ HashCollides H n M M' := by
  have hdigest : mapDigest 0 id (hashBinaryNode H) (edgeHash H) n M = mapDigest 0 id (hashBinaryNode H) (edgeHash H) n M' := h
  obtain heq | ⟨t, t', ht, ht', hcol⟩ | hempty | hempty := eq_or_mapCollides Function.injective_id hdigest
  · exact .inl heq
  · have hspec := ofMap_spec n M
    have hspec' := ofMap_spec n M'
    rw [ht] at hspec
    rw [ht'] at hspec'
    rw [HashCollides, ht, ht']
    exact .inr (.inl (exists_proofNodes hspec.1 hspec'.1 hn hcol))
  · obtain ⟨hM, hzero⟩ := roots_of_vanishes hempty
    exact .inr (.inr ⟨hM, hzero, h ▸ hzero⟩)
  · obtain ⟨hM, hzero⟩ := roots_of_vanishes hempty
    exact .inr (.inr ⟨hM.symm, h.trans hzero, hzero⟩)

end

section

variable [FeltCodec] {DB T DB' T' : Type} [BonsaiDatabase DB] [InfallibleDatabase DB] [AnswersOld DB]
  [BonsaiPersistentDatabase DB BasicId T] [InfallibleSnapshots DB BasicId T] [BonsaiDatabase DB'] [InfallibleDatabase DB']
  [AnswersOld DB'] [BonsaiPersistentDatabase DB' BasicId T'] [InfallibleSnapshots DB' BasicId T']

/-- The root hash binds the content: after two runs that end with a commit, over whatever backends and with whatever
configurations, restarts and ids, if the root hashes are the same, then the same values are read and the nodes and leaves
in the databases are the same, or the hash collides on the tries of what is read. -/
theorem root_binds (H : StarkHash) (m : UInt8) (hm : 0 < m.toNat)
    (db : DB) (hdb : ∀ key, InfallibleDatabase.columns db key = none) (config : BonsaiStorageConfig) (ts : List (Turn DB))
    (hts : Trace.Meets (Turn.run H m) (Turn.Tracked m.toNat) ts (BonsaiStorage.new db config m))
    (ords : HashOrders) (logOrd : HashOrder) (id : BasicId)
    (db' : DB') (hdb' : ∀ key, InfallibleDatabase.columns db' key = none) (config' : BonsaiStorageConfig) (ts' : List (Turn DB'))
    (hts' : Trace.Meets (Turn.run H m) (Turn.Tracked m.toNat) ts' (BonsaiStorage.new db' config' m))
    (ords' : HashOrders) (logOrd' : HashOrder) (id' : BasicId) (st : BonsaiStorage DB BasicId) (st' : BonsaiStorage DB' BasicId)
    (hst : st = Trace.after (Turn.run H m) (ts ++ [.request (.commit ords logOrd id)]) (BonsaiStorage.new db config m))
    (hst' : st' = Trace.after (Turn.run H m) (ts' ++ [.request (.commit ords' logOrd' id')]) (BonsaiStorage.new db' config' m))
    (root : Felt) (hroot : BonsaiStorage.rootHash st [] = .ok root) (hroot' : BonsaiStorage.rootHash st' [] = .ok root) :
    ((∀ k : Path, k.length = m.toNat → contentOf st [] 0 k = contentOf st' [] 0 k) ∧
        st.db.columns.tries = st'.db.columns.tries) ∨
      HashCollides H m.toNat (contentOf st [] 0) (contentOf st' [] 0) := by
  obtain ⟨htries, hmerkle⟩ := StoreRep.canonical_of_run hm hdb hts hst
  obtain ⟨htries', hmerkle'⟩ := StoreRep.canonical_of_run hm hdb' hts' hst'
  rw [hmerkle, Except.ok.injEq] at hroot
  rw [hmerkle', Except.ok.injEq] at hroot'
  obtain hsame | hcol := merkleRoot_binds (by have := UInt8.toNat_lt m; omega) (hroot.trans hroot'.symm)
  · exact .inl ⟨hsame, htries.trans ((Leaves.tries_congr hsame hsame).trans htries'.symm)⟩
  · exact .inr hcol

end

/-- The values of the two keys, exchanged. -/
def writeSwapped : List (Turn (HashMapDb BasicId)) :=
  [.request (.set (.aligned [true, false]) 2), .request (.set (.aligned [true, true]) 1)]

theorem writeSwapped_tracked :
    Trace.Meets (Turn.run (fun a b => a + b) 2) (Turn.Tracked (UInt8.toNat 2)) writeSwapped
      (BonsaiStorage.new (HashMapDb.empty : HashMapDb BasicId) ⟨none, none, 1⟩ 2) := by
  have hfresh : pendingOf (Trace.next (Turn.run (fun a b => a + b) 2) (.request (.set (.aligned [true, false]) 2))
      (BonsaiStorage.new (HashMapDb.empty : HashMapDb BasicId) ⟨none, none, 1⟩ 2)) [] (.aligned [true, true]) = none := by
    decide +kernel
  refine ⟨⟨rfl, fun _ _ old hold => ?_⟩, ⟨rfl, fun _ _ old hold => ?_⟩, trivial⟩
  · cases hold
  · rw [hfresh] at hold
    cases hold

theorem rootHash_swapped : BonsaiStorage.rootHash (committedAfter writeBoth) [] = .ok 5 ∧
    BonsaiStorage.rootHash (committedAfter writeSwapped) [] = .ok 5 := by
  decide +kernel

/-- A sum does not depend on the order: the two contents have the same root, and the hash collides. -/
theorem root_binds_sum :
    HashCollides (fun a b => a + b) (UInt8.toNat 2) (contentOf (committedAfter writeBoth) [] 0)
      (contentOf (committedAfter writeSwapped) [] 0) := by
  obtain ⟨hsame, -⟩ | hcol := root_binds (fun a b => a + b) 2 (by decide) HashMapDb.empty HashMapDb.columns_none
    ⟨none, none, 1⟩ writeBoth writeBoth_tracked (fun _ => .listed) .listed 2 HashMapDb.empty HashMapDb.columns_none
    ⟨none, none, 1⟩ writeSwapped writeSwapped_tracked (fun _ => .listed) .listed 2 (committedAfter writeBoth)
    (committedAfter writeSwapped) (committedAfter_eq _) (committedAfter_eq _) 5 rootHash_swapped.1 rootHash_swapped.2
  · exact absurd (hsame [true, false] rfl) (by decide +kernel)
  · exact hcol

end Bonsai
