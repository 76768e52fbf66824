import BonsaiTrie.Proof.HashMapDb
import BonsaiTrie.Proof.Runs

/-!
# Trees are apart

A run on several trees, seen from one of them, is a run on a single tree under
the empty identifier (`Mirrors`). The two stay alike (`Twins`) as long as the
keys of the trees do not meet: those of the nodes (`Apart`), and those that
splits put on a death row without the identifier.
-/

namespace Bonsai

open Patricia Run

/-- The second run has the calls of the first on the tree of `X`, under the empty identifier, and its
commits; hash maps may be iterated in another order. -/
inductive Mirrors {ID : Type} (X : ByteVec) : List (Op ID) → List (Op ID) → Prop where
  | nil : Mirrors X [] []
  | insert {ops ops' : List (Op ID)} (key : BitSlice) (value : Felt) :
      Mirrors X ops ops' → Mirrors X (.insert X key value :: ops) (.insert [] key value :: ops')
  | remove {ops ops' : List (Op ID)} (key : BitSlice) :
      Mirrors X ops ops' → Mirrors X (.remove X key :: ops) (.remove [] key :: ops')
  | otherInsert {ops ops' : List (Op ID)} {Y : ByteVec} (key : BitSlice) (value : Felt) : Y ≠ X →
      Mirrors X ops ops' → Mirrors X (.insert Y key value :: ops) ops'
  | otherRemove {ops ops' : List (Op ID)} {Y : ByteVec} (key : BitSlice) : Y ≠ X →
      Mirrors X ops ops' → Mirrors X (.remove Y key :: ops) ops'
  | commit {ops ops' : List (Op ID)} (ords ords' : HashOrders) (logOrd logOrd' : HashOrder) (id : ID) :
      Mirrors X ops ops' → Mirrors X (.commit ords logOrd id :: ops) (.commit ords' logOrd' id :: ops')

/-- A call that concerns the tree of `X`. -/
def Op.concerns {ID : Type} (X : ByteVec) : Op ID → Bool
  | .insert identifier _ _ | .remove identifier _ => identifier = X
  | .commit _ _ _ => true

/-- A call on the identifiers of `S`, with a key that starts at bit `o`: a split marks no other node
under either identifier, and at a commit no tree has a node of another on its death row. -/
def Op.Isolated [FeltCodec] {DB ID : Type} [BonsaiDatabase DB] (n : Nat) (o : Fin 8) (S : Set ByteVec)
    (st : BonsaiStorage DB ID) : Op ID → Prop
  | .insert identifier key value => identifier ∈ S ∧ key.head = o ∧ (key.len = n → value ≠ 0 →
      ∀ t, ofMap n (contentOf st identifier o) = some t → NoStray identifier t key ∧ NoStray [] t key)
  | .remove identifier key => identifier ∈ S ∧ key.head = o
  | .commit _ _ _ => NoIntrusion n o S st

section

variable [FeltCodec] {DB ID T : Type} [BonsaiDatabase DB] [Id ID] [BonsaiPersistentDatabase DB ID T]

/-- What the calls of a run that concern the tree of `X` return. -/
def resultsOf (X : ByteVec) (H : StarkHash) : List (Op ID) → BonsaiStorage DB ID →
    List (Except (Failure (BonsaiDatabase.DatabaseError DB)) Unit)
  | [], _ => []
  | op :: ops, st =>
    if op.concerns X then op.result H st :: resultsOf X H ops (op.after H st) else resultsOf X H ops (op.after H st)

variable [InfallibleDatabase DB]

/-- A storage and one that has only the tree of `X`, under the empty identifier: the trees have the
same leaves and the same nodes in the database. -/
structure Twins (H : StarkHash) (n : Nat) (o : Fin 8) (S : Set ByteVec) (X : ByteVec) (st ref : BonsaiStorage DB ID)
    (L : ByteVec → Leaves) : Prop where
  main : StorageRep H n o S st L
  alone : StorageRep H n o {[]} ref fun _ => L X
  nodes : ∀ p : Path, p.length ≤ n → st.db.columns (.trie (X ++ p.encode)) = ref.db.columns (.trie p.encode)
  interval : st.db.config.snapshotInterval ≠ 0
  interval_ref : ref.db.config.snapshotInterval ≠ 0

variable [InfallibleSnapshots DB ID T] {H : StarkHash} {n : Nat} {o : Fin 8} {S : Set ByteVec} {X : ByteVec}
  {st ref : BonsaiStorage DB ID} {L : ByteVec → Leaves} {ops ops' : List (Op ID)}

namespace Twins

omit [BonsaiPersistentDatabase DB ID T] [InfallibleSnapshots DB ID T] [Id ID] in
/-- The tries of the two are the same. -/
theorem content_ref (h : Twins H n o S X st ref L) (hX : X ∈ S) :
    ofMap n (contentOf ref [] o) = ofMap n (contentOf st X o) := by
  rw [h.main.ofMap_contentOf hX, h.alone.ofMap_contentOf rfl]

omit [InfallibleSnapshots DB ID T] in
/-- The same write on the two. -/
theorem write (h : Twins H n o S X st ref L) (hn : 0 < n) (hX : X ∈ S) (op op' : Op ID) {key : BitSlice} {value : Felt}
    (hop : op.run H st = MerkleTrees.set X key value st) (hop' : op'.run H ref = MerkleTrees.set [] key value ref)
    (hh : key.head = o) (hstray : key.len = n → value ≠ 0 →
      ∀ t, ofMap n (contentOf st X o) = some t → NoStray X t key ∧ NoStray [] t key) :
    op.result H st = op'.result H ref ∧ ∃ L', Twins H n o S X (op.after H st) (op'.after H ref) L' := by
  obtain ⟨hres, hR, hdb⟩ := h.main.write hn op hop hX hh fun hk hv t ht => (hstray hk hv t ht).1
  obtain ⟨hres', hR', hdb'⟩ := h.alone.write hn op' hop' rfl hh fun hk hv t ht => by
    rw [h.content_ref hX] at ht
    exact (hstray hk hv t ht).2
  refine ⟨hres.trans hres'.symm, _, hR, ?_, fun p hp => ?_, ?_, ?_⟩
  · refine hR'.congr_leaves fun Y hY => ?_
    obtain rfl := hY
    split <;> simp
  · rw [hdb, hdb']; exact h.nodes p hp
  · rw [hdb]; exact h.interval
  · rw [hdb']; exact h.interval_ref

omit [InfallibleSnapshots DB ID T] in
/-- A write on another tree. -/
theorem other (h : Twins H n o S X st ref L) (hn : 0 < n) {Y : ByteVec} (hY : Y ∈ S) (hne : Y ≠ X) (op : Op ID)
    {key : BitSlice} {value : Felt} (hop : op.run H st = MerkleTrees.set Y key value st) (hh : key.head = o)
    (hstray : key.len = n → value ≠ 0 → ∀ t, ofMap n (contentOf st Y o) = some t → NoStray Y t key) :
    ∃ L', Twins H n o S X (op.after H st) ref L' := by
  obtain ⟨-, hR, hdb⟩ := h.main.write hn op hop hY hh hstray
  refine ⟨_, hR, ?_, fun p hp => ?_, ?_, h.interval_ref⟩
  · refine h.alone.congr_leaves fun _ _ => ?_
    split
    · rw [Function.update_of_ne hne.symm]
    · rfl
  · rw [hdb]; exact h.nodes p hp
  · rw [hdb]; exact h.interval

/-- A commit of the two: the nodes in the database are those of the same trie. -/
theorem commit (h : Twins H n o S X st ref L) (hn : 0 < n) (hS : Apart n S) (hX : X ∈ S) (hI : NoIntrusion n o S st)
    (ords ords' : HashOrders) (logOrd logOrd' : HashOrder) (id : ID) :
    (Op.commit ords logOrd id).result H st = (Op.commit ords' logOrd' id).result H ref ∧
      (∃ L', Twins H n o S X ((Op.commit ords logOrd id).after H st) ((Op.commit ords' logOrd' id).after H ref) L') ∧
      BonsaiStorage.rootHash ((Op.commit ords logOrd id).after H st) X =
        BonsaiStorage.rootHash ((Op.commit ords' logOrd' id).after H ref) [] := by
  obtain ⟨hres, hR, hc, hidle, hroot⟩ := h.main.commit_step hn hS ords logOrd id ⟨hI, h.interval⟩
  obtain ⟨hres', hR', hc', hidle', hroot'⟩ := h.alone.commit_step hn (apart_singleton n []) ords'
    logOrd' id ⟨h.alone.noIntrusion, h.interval_ref⟩
  refine ⟨hres.trans hres'.symm, ⟨_, hR, hR', fun p hp => ?_, ?_, ?_⟩, ?_⟩
  · obtain ⟨T, hT⟩ := hR.leaves X hX
    obtain ⟨T', hT'⟩ := hR'.leaves [] rfl
    have hcols := hT.rep.columns_of_idle (hidle X) hp
    have hcols' := hT'.rep.columns_of_idle (hidle' []) hp
    rw [hR.identifier_treeOf, ← hT.trie_eq] at hcols
    rw [hR'.identifier_treeOf, ← hT'.trie_eq] at hcols'
    exact hcols.trans hcols'.symm
  · rw [hc]; exact h.interval
  · rw [hc']; exact h.interval_ref
  · rw [hroot X hX, hroot' [] rfl]

/-- The two stay alike along a run. -/
theorem run (hn : 0 < n) (hS : Apart n S) (hX : X ∈ S) (hm : Mirrors X ops ops') (h : Twins H n o S X st ref L)
    (hrun : Meets (Op.Isolated n o S) H ops st) :
    resultsOf X H ops st = results H ops' ref ∧ ∃ L', Twins H n o S X (after H ops st) (after H ops' ref) L' := by
  induction hm generalizing st ref L with
  | nil => exact ⟨rfl, L, h⟩
  | insert key value _ ih =>
    obtain ⟨⟨-, hh, hstray⟩, hrest⟩ := hrun
    obtain ⟨hres, L', h'⟩ := h.write hn hX (.insert X key value) (.insert [] key value) rfl rfl hh hstray
    obtain ⟨hres', hend⟩ := ih h' hrest
    exact ⟨by rw [resultsOf, results, if_pos (by simp [Op.concerns]), hres, hres'], hend⟩
  | remove key _ ih =>
    obtain ⟨⟨-, hh⟩, hrest⟩ := hrun
    obtain ⟨hres, L', h'⟩ := h.write hn hX (.remove X key) (.remove [] key) rfl rfl hh
      fun _ h0 => (h0 rfl).elim
    obtain ⟨hres', hend⟩ := ih h' hrest
    exact ⟨by rw [resultsOf, results, if_pos (by simp [Op.concerns]), hres, hres'], hend⟩
  | @otherInsert _ _ Y key value hne _ ih =>
    obtain ⟨⟨hY, hh, hstray⟩, hrest⟩ := hrun
    obtain ⟨L', h'⟩ := h.other hn hY hne (.insert Y key value) rfl hh fun hk hv t ht => (hstray hk hv t ht).1
    obtain ⟨hres', hend⟩ := ih h' hrest
    exact ⟨by rw [resultsOf, if_neg (by simp [Op.concerns, hne]), hres'], hend⟩
  | @otherRemove _ _ Y key hne _ ih =>
    obtain ⟨⟨hY, hh⟩, hrest⟩ := hrun
    obtain ⟨L', h'⟩ := h.other hn hY hne (.remove Y key) rfl hh fun _ h0 => (h0 rfl).elim
    obtain ⟨hres', hend⟩ := ih h' hrest
    exact ⟨by rw [resultsOf, if_neg (by simp [Op.concerns, hne]), hres'], hend⟩
  | commit ords ords' logOrd logOrd' id _ ih =>
    obtain ⟨hI, hrest⟩ := hrun
    obtain ⟨hres, ⟨L', h'⟩, -⟩ := h.commit hn hS hX hI ords ords' logOrd logOrd' id
    obtain ⟨hres', hend⟩ := ih h' hrest
    exact ⟨by rw [resultsOf, results, if_pos (by simp [Op.concerns]), hres, hres'], hend⟩

end Twins

variable (H) (o) in
/-- Seen from one tree, an isolated run is a run on that tree alone, under the empty identifier. -/
theorem isolated_run (m : UInt8) (hm : 0 < m.toNat) (S : Set ByteVec) (hS : Apart m.toNat S) (X : ByteVec) (hX : X ∈ S)
    (db db' : DB) (hdb : ∀ key : TrieKey, InfallibleDatabase.columns db key.toDatabaseKey = none)
    (hdb' : ∀ key : TrieKey, InfallibleDatabase.columns db' key.toDatabaseKey = none) (config : BonsaiStorageConfig)
    (hint : config.snapshotInterval ≠ 0) (ops ops' : List (Op ID)) (hmir : Mirrors X ops ops')
    (hrun : Meets (Op.Isolated m.toNat o S) H ops (BonsaiStorage.new db config m)) :
    resultsOf X H ops (BonsaiStorage.new db config m) = results H ops' (BonsaiStorage.new db' config m) ∧
    (∀ key : BitSlice, key.head = o → key.len = m.toNat →
      BonsaiStorage.get (after H ops (BonsaiStorage.new db config m)) X key =
        BonsaiStorage.get (after H ops' (BonsaiStorage.new db' config m)) [] key ∧
      BonsaiStorage.contains (after H ops (BonsaiStorage.new db config m)) X key =
        BonsaiStorage.contains (after H ops' (BonsaiStorage.new db' config m)) [] key) ∧
    (∀ p : Path, p.length ≤ m.toNat →
      (after H ops (BonsaiStorage.new db config m)).db.columns (.trie (X ++ p.encode)) =
        (after H ops' (BonsaiStorage.new db' config m)).db.columns (.trie p.encode)) ∧
    ∀ (ords ords' : HashOrders) (logOrd logOrd' : HashOrder) (id : ID),
      NoIntrusion m.toNat o S (after H ops (BonsaiStorage.new db config m)) →
      BonsaiStorage.rootHash ((Op.commit ords logOrd id).after H (after H ops (BonsaiStorage.new db config m))) X =
        BonsaiStorage.rootHash ((Op.commit ords' logOrd' id).after H (after H ops' (BonsaiStorage.new db' config m))) [] := by
  have hstart : Twins H m.toNat o S X (BonsaiStorage.new db config m : BonsaiStorage DB ID)
      (BonsaiStorage.new db' config m) fun _ => .empty :=
    ⟨.start hdb config m o S, .start hdb' config m o {[]}, fun p _ => (hdb (.trie _)).trans (hdb' (.trie _)).symm, hint, hint⟩
  obtain ⟨hres, L, h⟩ := Twins.run hm hS hX hmir hstart hrun
  refine ⟨hres, fun key hh hkey => ⟨?_, ?_⟩, h.nodes, fun ords ords' logOrd logOrd' id hI => ?_⟩
  · exact (h.main.get_ok hX hh hkey).trans (h.alone.get_ok rfl hh hkey).symm
  · exact (h.main.contains_ok hX hh hkey).trans (h.alone.contains_ok rfl hh hkey).symm
  · exact (h.commit hm hS hX hI ords ords' logOrd logOrd' id).2.2

end

/-- The keys of the trees of the empty identifier and of `[9]` differ in their first byte. -/
theorem apart_nine : Apart (UInt8.toNat 1) {[], [9]} := by
  have hlen (p : Path) (hp : p.length ≤ 1) (b : ByteVec) : p.encode ≠ 9 :: b := by
    rw [Path.encode_eq]
    intro h
    have := congrArg UInt8.toNat (List.cons.inj h).1
    rw [UInt8.toNat_ofNat', show UInt8.toNat 9 = 9 from rfl] at this
    omega
  rintro X (rfl | rfl) Y (rfl | rfl) hne p q hp hq
  · exact (hne rfl).elim
  · exact hlen p hp _
  · exact (hlen q (by have : UInt8.toNat 1 = 1 := rfl; omega) _).symm
  · exact (hne rfl).elim

/-- A key in each of two trees. -/
def writeEach : List (Op BasicId) := [.insert [] (.aligned [true]) 5, .insert [9] (.aligned [false]) 6]

theorem isolated_run_nine :
    BonsaiStorage.get (after (fun a b => a + b) (writeEach ++ [Op.commit (fun _ => .listed) .listed 1]) (.inMemory 1)) [9]
        (.aligned [false]) =
      BonsaiStorage.get (after (fun a b => a + b) [Op.insert [] (.aligned [false]) 6, Op.commit (fun _ => .listed) .listed 1]
        (.inMemory 1)) [] (.aligned [false]) := by
  have hm : 0 < UInt8.toNat 1 := by decide
  have hmir : Mirrors [9] (writeEach ++ [Op.commit (fun _ => .listed) .listed (1 : BasicId)])
      [Op.insert [] (.aligned [false]) 6, Op.commit (fun _ => .listed) .listed 1] :=
    .otherInsert _ _ (by decide) (.insert _ _ (.commit _ _ _ _ _ .nil))
  have h₁ : ofMap (UInt8.toNat 1) (contentOf (BonsaiStorage.inMemory 1) [] 0) = none := by decide +kernel
  have h₂ : ofMap (UInt8.toNat 1) (contentOf ((Op.insert [] (.aligned [true]) 5).after (fun a b => a + b) (.inMemory 1)) [9] 0) =
      none := by decide +kernel
  have hrow : ∀ e ∈ (after (fun a b => a + b) writeEach (.inMemory 1)).trees.entries, e.2.deathRow.entries = [] := by
    decide +kernel
  have hrun : Meets (Op.Isolated (UInt8.toNat 1) 0 {[], [9]}) (fun a b => a + b)
      (writeEach ++ [Op.commit (fun _ => .listed) .listed 1]) (.inMemory 1) := by
    refine ⟨⟨.inl rfl, rfl, fun _ _ t ht => ?_⟩, ⟨.inr rfl, rfl, fun _ _ t ht => ?_⟩, ?_, trivial⟩
    · rw [h₁] at ht; cases ht
    · rw [h₂] at ht; cases ht
    · intro Y tree hl X _ _ t p _ _
      have := hrow ⟨Y, tree⟩ (AList.mem_lookup_iff.mp hl)
      rw [AList.lookup, this]
      rfl
  have h := isolated_run (fun a b => a + b) 0 1 hm {[], [9]} apart_nine [9] (.inr rfl) HashMapDb.empty HashMapDb.empty
    HashMapDb.columns_empty HashMapDb.columns_empty ⟨none, none, 1⟩ (by decide) _ _ hmir hrun
  exact (h.2.1 (.aligned [false]) rfl rfl).1

/-- A tree of three keys; then three keys in another tree, the last of which splits an edge at the
depth of a node of the first; then a write to the first. -/
def intrude : List (Op BasicId) :=
  [.insert [] (.aligned [false, false]) 1, .insert [] (.aligned [false, true]) 2, .insert [] (.aligned [true, false]) 3,
    .commit (fun _ => .listed) .listed 1, .insert [9] (.aligned [false, false]) 1, .insert [9] (.aligned [true, false]) 2,
    .insert [9] (.aligned [false, true]) 3, .commit (fun _ => .listed) .listed 2, .insert [] (.aligned [false, false]) 5]

/-- The calls of `intrude` on the first tree. -/
def intruded : List (Op BasicId) :=
  [.insert [] (.aligned [false, false]) 1, .insert [] (.aligned [false, true]) 2, .insert [] (.aligned [true, false]) 3,
    .commit (fun _ => .listed) .listed 1, .commit (fun _ => .listed) .listed 2, .insert [] (.aligned [false, false]) 5]

/-- The second tree's commit removes the node of the first, and the write fails. -/
theorem not_isolated_run :
    Mirrors [] intrude intruded ∧
      resultsOf [] (fun a b => a + b) intrude (.inMemory 2) ≠ results (fun a b => a + b) intruded (.inMemory 2) := by
  refine ⟨?_, by decide +kernel⟩
  exact .insert _ _ <| .insert _ _ <| .insert _ _ <| .commit _ _ _ _ _ <| .otherInsert _ _ (by decide) <|
    .otherInsert _ _ (by decide) <| .otherInsert _ _ (by decide) <| .commit _ _ _ _ _ <| .insert _ _ .nil

end Bonsai
