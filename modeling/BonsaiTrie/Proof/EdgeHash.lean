import BonsaiTrie.Impl.Felt

/-!
# What the hash of an edge is made of

The path of an edge goes into its hash as an integer modulo the prime of the
field, and its length as another (`pathFelt_val`, `lengthFelt_val`). Two paths
are told apart by these unless they have the same length and integers that are
congruent (`edgeFelts_eq_iff`), which below 252 bits are equal.
-/

namespace Bonsai

open Pack

theorem natOfBytesBe_cons (x : UInt8) (bytes : ByteVec) :
    natOfBytesBe (x :: bytes) = 256 ^ bytes.length * x.toNat + natOfBytesBe bytes := by
  have hfold (bytes : ByteVec) (acc : Nat) : bytes.foldl (fun acc b => 256 * acc + b.toNat) acc =
      256 ^ bytes.length * acc + natOfBytesBe bytes := by
    induction bytes generalizing acc with
    | nil => simp [natOfBytesBe]
    | cons y bytes ih =>
      rw [natOfBytesBe, List.foldl_cons, List.foldl_cons, ih, ih (256 * 0 + y.toNat), List.length_cons]
      ring
  rw [natOfBytesBe, List.foldl_cons, hfold]
  ring

/-- The bytes of whole bytes of bits have the integer of the bits. -/
theorem natOfBytesBe_pack {bits : List Bool} (h : 8 ∣ bits.length) : natOfBytesBe (pack bits) = toNat bits := by
  induction bits using pack.induct with
  | case1 => rfl
  | case2 a b c d e f g i rest ih =>
    have hrest : 8 ∣ rest.length := by
      simp only [List.length_cons] at h
      omega
    have hbytes : 256 ^ (pack rest).length = 2 ^ rest.length := by
      obtain ⟨k, hk⟩ := hrest
      rw [length_pack, hk, show (8 * k + 7) / 8 = k by omega, show (256 : Nat) = 2 ^ 8 by rfl, ← pow_mul]
    rw [pack, natOfBytesBe_cons, ih hrest, packByte_toNat, hbytes,
      show a :: b :: c :: d :: e :: f :: g :: i :: rest = [a, b, c, d, e, f, g, i] ++ rest from rfl, toNat_append]
  | case3 bits hne hl =>
    have := length_lt_eight hl
    have := List.length_pos_of_ne_nil hne
    omega

/-- The felt of a path is its integer modulo the prime. -/
theorem pathFelt_val {path : Path} (h : path.length ≤ 256) : (pathFelt path).val = toNat path % feltPrime := by
  have hlen : 8 ∣ (List.replicate (256 - path.length) false ++ path).length := by
    rw [List.length_append, List.length_replicate, Nat.sub_add_cancel h]
    decide
  rw [pathFelt, Felt.ofBytesBe, natOfBytesBe_pack hlen, toNat_pad]
  rfl

/-- The felt of a length of one byte is the length. -/
theorem lengthFelt_val {path : Path} (h : path.length ≤ 255) : (lengthFelt path).val = path.length := by
  have hzero (n : Nat) : natOfBytesBe (List.replicate n 0 ++ [UInt8.ofNat path.length]) = path.length := by
    induction n with
    | zero =>
      show 256 * 0 + (UInt8.ofNat path.length).toNat = path.length
      rw [UInt8.toNat_ofNat']
      omega
    | succ n ih =>
      rw [List.replicate_succ, List.cons_append, natOfBytesBe_cons, ih]
      simp
  rw [lengthFelt, Felt.ofBytesBe, hzero]
  have : path.length < feltPrime := by
    rw [feltPrime]
    omega
  exact Nat.mod_eq_of_lt this

/-- Two paths feed the same felts into the hash when their lengths are the same and their integers
congruent. -/
theorem edgeFelts_eq_iff {p q : Path} (hp : p.length ≤ 255) (hq : q.length ≤ 255) :
    (pathFelt p, lengthFelt p) = (pathFelt q, lengthFelt q) ↔
      p.length = q.length ∧ toNat p ≡ toNat q [MOD feltPrime] := by
  rw [Prod.mk.injEq, Fin.ext_iff, Fin.ext_iff, pathFelt_val (by omega), pathFelt_val (by omega), lengthFelt_val hp,
    lengthFelt_val hq, and_comm]
  rfl

/-- Shorter paths are equal then. -/
theorem eq_of_edgeFelts {p q : Path} (hp : p.length ≤ 251) (hq : q.length ≤ 251)
    (h : (pathFelt p, lengthFelt p) = (pathFelt q, lengthFelt q)) : p = q := by
  obtain ⟨hl, hmod⟩ := (edgeFelts_eq_iff (by omega) (by omega)).mp h
  have hlt {r : Path} (hr : r.length ≤ 251) : toNat r < feltPrime :=
    (toNat_lt r).trans_le ((Nat.pow_le_pow_right Nat.two_pos hr).trans (by rw [feltPrime]; omega))
  exact toNat_inj hl (Nat.ModEq.eq_of_lt_of_lt hmod (hlt hp) (hlt hq))

/-- The prime of the field, in 252 bits. -/
def primePath : Path :=
  true :: List.replicate 54 false ++ true :: List.replicate 3 false ++ true :: List.replicate 191 false ++ [true]

/-- The felts that `hash_edge_node` is fed with tell apart all paths of a storage exactly when its height is
at most 251; and any two paths unless they have the same length and congruent integers. -/
theorem edgeFelts_separate (m : UInt8) :
    ((∀ p q : Path, p.length ≤ m.toNat → q.length ≤ m.toNat → p ≠ q →
        (pathFelt p, lengthFelt p) ≠ (pathFelt q, lengthFelt q)) ↔ m.toNat ≤ 251) ∧
      ∀ p q : Path, p.length ≤ m.toNat → q.length ≤ m.toNat → p ≠ q →
        ((pathFelt p, lengthFelt p) ≠ (pathFelt q, lengthFelt q) ↔
          ¬ (p.length = q.length ∧ 252 ≤ p.length ∧ toNat p ≡ toNat q [MOD feltPrime])) := by
  have hm := UInt8.toNat_lt m
  refine ⟨⟨fun h => ?_, fun hm p q hp hq hne heq => hne (eq_of_edgeFelts (hp.trans hm) (hq.trans hm) heq)⟩,
    fun p q hp hq hne => not_congr ?_⟩
  · by_contra hlt
    -- the prime and zero, in as many bits
    let p : Path := List.replicate (m.toNat - 252) false ++ primePath
    let q : Path := List.replicate m.toNat false
    have hlen : primePath.length = 252 := by decide +kernel
    have hp : p.length = m.toNat := by
      rw [List.length_append, List.length_replicate, hlen]
      omega
    have hq : q.length = m.toNat := List.length_replicate
    have hval : toNat p = feltPrime := by
      rw [toNat_pad]
      decide +kernel
    have hval' : toNat q = 0 := toNat_replicate_false _
    refine h p q hp.le hq.le (fun heq => ?_) ((edgeFelts_eq_iff (by omega) (by omega)).mpr ⟨hp.trans hq.symm, ?_⟩)
    · rw [heq, hval'] at hval
      exact absurd hval (by decide)
    · rw [hval, hval', Nat.ModEq, Nat.mod_self, Nat.zero_mod]
  · constructor
    · intro heq
      obtain ⟨hl, hmod⟩ := (edgeFelts_eq_iff (by omega) (by omega)).mp heq
      refine ⟨hl, ?_, hmod⟩
      by_contra hlt
      exact hne (eq_of_edgeFelts (by omega) (by omega) heq)
    · rintro ⟨hl, -, hmod⟩
      exact (edgeFelts_eq_iff (by omega) (by omega)).mpr ⟨hl, hmod⟩

theorem edgeFelts_separate_two :
    (pathFelt [true, false], lengthFelt [true, false]) ≠ (pathFelt [false, true], lengthFelt [false, true]) :=
  (edgeFelts_separate 2).1.mpr (by decide) [true, false] [false, true] (by decide) (by decide) (by decide)

/-- The prime and zero, in 252 bits, are not told apart. -/
theorem edgeFelts_collide :
    primePath.length = 252 ∧ (252 : UInt8).toNat = 252 ∧ primePath ≠ List.replicate 252 false ∧
      (pathFelt primePath, lengthFelt primePath) = (pathFelt (List.replicate 252 false), lengthFelt (List.replicate 252 false)) := by
  decide +kernel

end Bonsai
