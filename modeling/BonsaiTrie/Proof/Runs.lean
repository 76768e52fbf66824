import BonsaiTrie.Proof.Storage

/-!
# Runs refine the leaves

One call does to a storage what `Op.leaves` does to the leaves of its trees
(`StorageRep.step`); what every call keeps of the leaves, a run keeps
(`StorageRep.simulates`). A call with a key of another length changes nothing.
-/

namespace Bonsai

open Patricia Run

/-- With one tree, and keys that start at the first bit of a byte, the keys of the death row are
those of the nodes. -/
theorem noStray_of_aligned {n : Nat} {t : Trie Felt} (ht : t.WF n) (hn : n ≤ 255) {key : BitSlice} (hh : key.head = 0)
    (hkey : key.len = n) : NoStray [] t key := by
  intro d q c _ _ p hp hne heq
  have hlen := ht.length_lt_of_hasNode hp
  rw [List.nil_append] at heq
  by_cases hd : (key.upTo d).bits = []
  · rw [bitsliceToBytes, if_pos (by rw [hd]; rfl), Path.encode_eq] at heq
    cases heq
  · rw [BitSlice.bytes_eq_encode (s := key.upTo d) hh hd] at heq
    have htake : (key.bits.take d).length ≤ 255 := by
      have := List.length_take_le' d key.bits
      have : key.bits.length = n := hkey
      omega
    exact hne (Path.encode_inj htake (by omega) heq).symm

theorem noStray_ofMap {n : Nat} (hn : n ≤ 255) {key : BitSlice} (hh : key.head = 0) (hkey : key.len = n)
    {M : Path → Option Felt} {t : Trie Felt} (ht : ofMap n M = some t) : NoStray [] t key := by
  have hspec := ofMap_spec n M
  rw [ht] at hspec
  exact noStray_of_aligned hspec.1 hn hh hkey

section

variable [FeltCodec] {DB ID : Type} [BonsaiDatabase DB] [InfallibleDatabase DB] {H : StarkHash} {n : Nat} {o : Fin 8}
  {S : Set ByteVec} {st : BonsaiStorage DB ID} {L : ByteVec → Leaves} {X : ByteVec} {key : BitSlice} {value : Felt}

/-- A tree over a database that has no trees. -/
theorem LeafRep.start {cols : Columns} (h : ∀ key : TrieKey, cols key.toDatabaseKey = none) (X : ByteVec) (m : UInt8)
    (o : Fin 8) : LeafRep H m.toNat o cols (.new X m) none .empty := by
  have hd (p : Path) : (MerkleTree.new X m).disk cols p = none := by
    rw [MerkleTree.disk, show cols (.trie ((MerkleTree.new X m).identifier ++ p.encode)) = none from h (.trie _), ite_self]
  refine ⟨⟨rfl, .noTrie fun _ => rfl, (by rintro t ⟨⟩), fun p _ hs => ?_, fun b => rfl⟩,
    fun k _ => rfl, fun k _ => rfl, fun k _ => h (.flat _), fun k => rfl, (by rintro b ⟨⟩)⟩
  rw [hd] at hs
  cases hs

namespace StorageRep

/-- A new storage over a database that has no trees. -/
theorem start {db : DB} (h : ∀ key : TrieKey, InfallibleDatabase.columns db key.toDatabaseKey = none)
    (config : BonsaiStorageConfig) (m : UInt8) (o : Fin 8) (S : Set ByteVec) :
    StorageRep H m.toNat o S (BonsaiStorage.new db config m : BonsaiStorage DB ID) fun _ => .empty :=
  ⟨(by rintro X tree ⟨⟩), fun X _ => ⟨none, .start h X m o⟩⟩

/-- Only the leaves of the identifiers of `S` matter. -/
theorem congr_leaves (h : StorageRep H n o S st L) {L' : ByteVec → Leaves} (hL : ∀ X ∈ S, L X = L' X) :
    StorageRep H n o S st L' :=
  ⟨h.trees, fun X hX => by rw [← hL X hX]; exact h.leaves X hX⟩

/-- What is pending for a key. -/
theorem pendingOf_eq (h : StorageRep H n o S st L) (hX : X ∈ S) (hh : key.head = o) (hkey : key.len = n) :
    pendingOf st X key = (L X).cache key.bits := by
  obtain ⟨T, hT⟩ := h.leaves X hX
  subst hh
  exact hT.cache key.bits hkey

theorem contentOf_eq (h : StorageRep H n o S st L) (hX : X ∈ S) {k : Path} (hk : k.length = n) :
    contentOf st X o k = (L X).get k := by
  rw [contentOf, BonsaiStorage.get, h.get_ok hX (show (⟨o, k⟩ : BitSlice).head = o from rfl) hk]

/-- With one identifier there is no other tree. -/
theorem noIntrusion (h : StorageRep H n o {X} st L) : NoIntrusion n o {X} st := by
  rintro Y tree hl _ rfl hne
  exact (hne (h.trees Y tree hl).1.symm).elim

/-- A key of another length is refused, and only an empty tree may have been made. -/
theorem set_keyLength (h : StorageRep H n o S st L) (hX : X ∈ S) (hkey : key.len ≠ n) (value : Felt) :
    ∃ st', MerkleTrees.set X key value st = .error (.error (.keyLength n key.len)) st' ∧ StorageRep H n o S st' L ∧
      st'.db = st.db := by
  obtain ⟨T, hT⟩ := h.leaves X hX
  have hrun := MerkleTree.set_keyLength st.db (by rw [hT.rep.height]; exact hkey) value
  refine ⟨{ st with trees := st.trees.insert X (st.treeOf X) }, ?_, ?_, rfl⟩
  · rw [MerkleTrees.set, MerkleTrees.onTree, hrun, hT.rep.height]
  · have hins := h.insert_tree hX hT (h.identifier_treeOf X)
    rwa [Function.update_eq_self] at hins

end StorageRep

variable {T : Type} [Id ID] [BonsaiPersistentDatabase DB ID T] [InfallibleSnapshots DB ID T] {op : Op ID} {ops : List (Op ID)}

namespace StorageRep

omit [InfallibleSnapshots DB ID T] in
/-- A write does to its tree what `Leaves.set` does. -/
theorem write (h : StorageRep H n o S st L) (hn : 0 < n) (op : Op ID) (hop : op.run H st = MerkleTrees.set X key value st) (hX : X ∈ S)
    (hh : key.head = o)
    (hstray : key.len = n → value ≠ 0 → ∀ t, ofMap n (contentOf st X o) = some t → NoStray X t key) :
    op.result H st = (if key.len = n then .ok () else .error (.error (.keyLength n key.len))) ∧
      StorageRep H n o S (op.after H st)
        (if key.len = n then Function.update L X ((L X).set key.bits value) else L) ∧
      (op.after H st).db = st.db := by
  by_cases hkey : key.len = n
  · obtain ⟨st', hrun, hR, hdb, -⟩ := h.set_ok hn hX hh hkey value (hstray hkey)
    rw [← hop] at hrun
    rw [Op.result_ok hrun, Op.after_ok hrun, if_pos hkey, if_pos hkey]
    exact ⟨rfl, hR, hdb⟩
  · obtain ⟨st', hrun, hR, hdb⟩ := h.set_keyLength hX hkey value
    rw [← hop] at hrun
    rw [Op.result_error hrun, Op.after_error hrun, if_neg hkey, if_neg hkey]
    exact ⟨rfl, hR, hdb⟩

/-- A commit returns, and leaves every tree idle, with its leaves committed and the root hash of its trie. -/
theorem commit_step (h : StorageRep H n o S st L) (hn : 0 < n) (hS : Apart n S) (ords : HashOrders) (logOrd : HashOrder)
    (id : ID) (hop : (Op.commit ords logOrd id).Clean n o S st) :
    (Op.commit ords logOrd id).result H st = .ok () ∧
      StorageRep H n o S ((Op.commit ords logOrd id).after H st) (fun X => (L X).commit) ∧
      ((Op.commit ords logOrd id).after H st).db.config = st.db.config ∧
      (∀ X, (((Op.commit ords logOrd id).after H st).treeOf X).Idle) ∧
      ∀ X ∈ S, BonsaiStorage.rootHash ((Op.commit ords logOrd id).after H st) X = .ok (merkleRoot H n (L X).trie) := by
  obtain ⟨st', hrun, hR, -, hc, hidle, hroot⟩ := h.commit_ok hn hS hop.1 hop.2 ords logOrd id
  have hrun' : (Op.commit ords logOrd id).run H st = .ok () st' := hrun
  rw [Op.result_ok hrun', Op.after_ok hrun']
  exact ⟨rfl, hR, hc, hidle, hroot⟩

/-- A call returns and does to the leaves what it should. -/
theorem step (h : StorageRep H n o S st L) (hn : 0 < n) (hS : Apart n S) (hop : op.Clean n o S st) :
    op.result H st = op.answer n ∧ StorageRep H n o S (op.after H st) (op.leaves n L) ∧
      (op.after H st).db.config = st.db.config := by
  cases op with
  | insert X key value =>
    obtain ⟨hres, hR, hdb⟩ := h.write hn (.insert X key value) rfl hop.1 hop.2.1 hop.2.2
    exact ⟨hres, hR, congrArg _ hdb⟩
  | remove X key =>
    obtain ⟨hres, hR, hdb⟩ := h.write hn (.remove X key) rfl hop.1 hop.2 fun _ h0 => (h0 rfl).elim
    exact ⟨hres, hR, congrArg _ hdb⟩
  | commit ords logOrd id =>
    obtain ⟨hres, hR, hc, -⟩ := h.commit_step hn hS ords logOrd id hop
    exact ⟨hres, hR, hc⟩

/-- A relation of the leaves and an abstract state is kept along a run, when every step that meets
the condition is clean and keeps it; the calls return what they should. -/
theorem simulates {cond : BonsaiStorage DB ID → Op ID → Prop} {σ : Type} {f : σ → Op ID → σ}
    {P : (ByteVec → Leaves) → σ → Prop} (hn : 0 < n) (hS : Apart n S)
    (hstep : ∀ st op L a, StorageRep H n o S st L → P L a → cond st op →
      op.Clean n o S st ∧ P (op.leaves n L) (f a op))
    (hrun : Meets cond H ops st) (h : StorageRep H n o S st L) {a : σ} (hP : P L a) :
    results H ops st = ops.map (·.answer n) ∧
      ∃ L', StorageRep H n o S (after H ops st) L' ∧ P L' (ops.foldl f a) := by
  induction ops generalizing st L a with
  | nil => exact ⟨rfl, L, h, hP⟩
  | cons op ops ih =>
    obtain ⟨hclean, hP'⟩ := hstep st op L a h hP hrun.1
    obtain ⟨hres, hR, -⟩ := h.step hn hS hclean
    obtain ⟨hres', hend⟩ := ih hrun.2 hR hP'
    exact ⟨by rw [results, hres, hres']; rfl, hend⟩

end StorageRep

end

end Bonsai
