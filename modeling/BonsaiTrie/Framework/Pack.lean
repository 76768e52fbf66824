import Mathlib.Tactic

/-!
# Packing bits into bytes

Bit strings packed eight to a byte, the first bit in the most significant
position, the last byte padded with zeros (`pack`). Packed strings of one
length are equal only when the bits are (`pack_inj`), and the bits come back
from the bytes (`take_unpack_pack`). So are the integers of bit strings of one
length (`toNat_inj`).
-/

namespace Pack

/-- At most eight bits as a byte, the first in the most significant position. -/
def packByte (bs : List Bool) : UInt8 :=
  (bs ++ List.replicate (8 - bs.length) false).foldl (fun acc b => acc <<< 1 ||| if b then 1 else 0) 0

/-- A bit string packed eight bits to a byte. -/
def pack : List Bool → List UInt8
  | [] => []
  | a :: b :: c :: d :: e :: f :: g :: h :: rest => packByte [a, b, c, d, e, f, g, h] :: pack rest
  | bs => [packByte bs]

/-- The bits of a byte, the most significant first. -/
def unpackByte (x : UInt8) : List Bool :=
  [7, 6, 5, 4, 3, 2, 1, 0].map fun i : UInt8 => (x >>> i) &&& 1 == 1

/-- The bits of a byte string. -/
def unpack (bs : List UInt8) : List Bool := bs.flatMap unpackByte

theorem unpackByte_packByte (a b c d e f g h : Bool) :
    unpackByte (packByte [a, b, c, d, e, f, g, h]) = [a, b, c, d, e, f, g, h] := by
  revert a b c d e f g h; decide

/-- A byte of fewer than eight bits is the byte of those bits and zeros. -/
theorem packByte_pad (bs : List Bool) :
    packByte (bs ++ List.replicate (8 - bs.length) false) = packByte bs := by
  by_cases h : bs.length ≤ 8
  · simp [packByte, h]
  · simp [packByte, Nat.sub_eq_zero_of_le (Nat.le_of_not_le h)]

/-- A string of eight bits. -/
theorem eq_of_length_eight {l : List Bool} (h : l.length = 8) :
    ∃ a b c d e f g i, l = [a, b, c, d, e, f, g, i] := by
  rcases l with _ | ⟨a, _ | ⟨b, _ | ⟨c, _ | ⟨d, _ | ⟨e, _ | ⟨f, _ | ⟨g, _ | ⟨i, _ | ⟨j, l⟩⟩⟩⟩⟩⟩⟩⟩⟩ <;>
    simp at h
  exact ⟨a, b, c, d, e, f, g, i, rfl⟩

theorem unpackByte_packByte_of_le {bs : List Bool} (h : bs.length ≤ 8) :
    unpackByte (packByte bs) = bs ++ List.replicate (8 - bs.length) false := by
  rw [← packByte_pad]
  obtain ⟨a, b, c, d, e, f, g, i, he⟩ :=
    eq_of_length_eight (l := bs ++ List.replicate (8 - bs.length) false) (by simp [h])
  rw [he, unpackByte_packByte]

/-- A string that is not packed as a full byte first. -/
theorem length_lt_eight {bs : List Bool}
    (h : ∀ a b c d e f g i rest, bs = a :: b :: c :: d :: e :: f :: g :: i :: rest → False) :
    bs.length < 8 := by
  rcases bs with _ | ⟨a, _ | ⟨b, _ | ⟨c, _ | ⟨d, _ | ⟨e, _ | ⟨f, _ | ⟨g, _ | ⟨i, l⟩⟩⟩⟩⟩⟩⟩⟩ <;> simp
  exact (h _ _ _ _ _ _ _ _ _ rfl).elim

theorem pack_short {bs : List Bool} (hne : bs ≠ []) (h : bs.length < 8) : pack bs = [packByte bs] := by
  rw [pack]
  · exact hne
  · rintro a b c d e f g i rest rfl
    simp only [List.length_cons] at h
    omega

/-- The bits come back, followed by the padding of the last byte. -/
theorem unpack_pack (bs : List Bool) :
    ∃ pad, unpack (pack bs) = bs ++ List.replicate pad false ∧ pad < 8 := by
  induction bs using pack.induct with
  | case1 => exact ⟨0, rfl, by decide⟩
  | case2 a b c d e f g h rest ih =>
    obtain ⟨pad, ih, hp⟩ := ih
    refine ⟨pad, ?_, hp⟩
    rw [pack, unpack, List.flatMap_cons, unpackByte_packByte, ← unpack, ih]
    rfl
  | case3 bs hne hl =>
    have hl := length_lt_eight hl
    have hpos := List.length_pos_of_ne_nil hne
    refine ⟨8 - bs.length, ?_, by omega⟩
    rw [pack_short hne hl, unpack, List.flatMap_cons, List.flatMap_nil, List.append_nil,
      unpackByte_packByte_of_le hl.le]

theorem take_unpack_pack (bs : List Bool) : (unpack (pack bs)).take bs.length = bs := by
  obtain ⟨pad, h, -⟩ := unpack_pack bs
  rw [h, List.take_left']
  rfl

/-- Strings of one length are equal when their bytes are. -/
theorem pack_inj {as bs : List Bool} (hl : as.length = bs.length) (h : pack as = pack bs) : as = bs := by
  rw [← take_unpack_pack as, ← take_unpack_pack bs, h, hl]

theorem length_pack (bs : List Bool) : (pack bs).length = (bs.length + 7) / 8 := by
  induction bs using pack.induct with
  | case1 => rfl
  | case2 a b c d e f g h rest ih => rw [pack, List.length_cons, ih]; simp only [List.length_cons]; omega
  | case3 bs hne hl =>
    have hl := length_lt_eight hl
    have hpos := List.length_pos_of_ne_nil hne
    rw [pack_short hne hl, List.length_singleton]
    omega

/-- Zeros are packed into zeros. -/
theorem pack_of_not_mem {bs : List Bool} (h : true ∉ bs) : pack bs = List.replicate ((bs.length + 7) / 8) 0 := by
  induction bs using pack.induct with
  | case1 => rfl
  | case2 a b c d e f g i rest ih =>
    obtain ⟨rfl, rfl, rfl, rfl, rfl, rfl, rfl, rfl, hrest⟩ : a = false ∧ b = false ∧ c = false ∧ d = false ∧ e = false ∧
        f = false ∧ g = false ∧ i = false ∧ true ∉ rest := by
      simpa [List.mem_cons] using h
    have hlen : (8 + rest.length + 7) / 8 = (rest.length + 7) / 8 + 1 := by omega
    rw [pack, ih hrest, show packByte [false, false, false, false, false, false, false, false] = 0 by decide]
    simp only [List.length_cons]
    rw [show rest.length + 1 + 1 + 1 + 1 + 1 + 1 + 1 + 1 + 7 = 8 + rest.length + 7 by omega, hlen, List.replicate_succ]
  | case3 bs hne hl =>
    have hl := length_lt_eight hl
    have hpos := List.length_pos_of_ne_nil hne
    have hbs : bs = List.replicate bs.length false := List.eq_replicate_of_mem fun b hb => by
      cases b
      · rfl
      · exact (h hb).elim
    have hzero : ∀ m < 8, packByte (List.replicate m false) = 0 := by decide
    rw [pack_short hne hl, show (bs.length + 7) / 8 = 1 by omega, List.replicate_one]
    nth_rewrite 1 [hbs]
    rw [hzero _ hl]

/-- Bits that are packed from different places have the same bytes only when they are zeros. -/
theorem pack_shift_iff (a b : Nat) (bs : List Bool) :
    pack (List.replicate a false ++ bs) = pack (List.replicate b false ++ bs) ↔
      a = b ∨ true ∉ bs ∧ (a + bs.length + 7) / 8 = (b + bs.length + 7) / 8 := by
  have hnot (m : Nat) : true ∉ List.replicate m false := by simp
  constructor
  · intro h
    by_cases hbs : true ∈ bs
    · left
      obtain ⟨pad, ha, -⟩ := unpack_pack (List.replicate a false ++ bs)
      obtain ⟨pad', hb, -⟩ := unpack_pack (List.replicate b false ++ bs)
      -- the first bit that is set is at the same place
      have hidx (m pad : Nat) : (List.replicate m false ++ bs ++ List.replicate pad false).idxOf true = m + bs.idxOf true := by
        rw [List.idxOf_append_of_mem (List.mem_append_right _ hbs), List.idxOf_append_of_notMem (hnot m), List.length_replicate]
      have := hidx a pad
      rw [← ha, h, hb, hidx b pad'] at this
      omega
    · refine .inr ⟨hbs, ?_⟩
      have := congrArg List.length h
      simpa [length_pack] using this
  · rintro (rfl | ⟨hbs, hlen⟩)
    · rfl
    · rw [pack_of_not_mem, pack_of_not_mem]
      · simp only [List.length_append, List.length_replicate, hlen]
      · simpa using hbs
      · simpa using hbs

/-! ## Integers -/

/-- The integer of a bit string, the first bit the most significant. -/
def toNat (bits : List Bool) : Nat := bits.foldl (fun acc b => 2 * acc + b.toNat) 0

theorem foldl_toNat (bits : List Bool) (acc : Nat) :
    bits.foldl (fun acc b => 2 * acc + b.toNat) acc = 2 ^ bits.length * acc + toNat bits := by
  induction bits generalizing acc with
  | nil => simp [toNat]
  | cons b bits ih =>
    rw [toNat, List.foldl_cons, List.foldl_cons, ih, ih (2 * 0 + b.toNat), List.length_cons]
    ring

@[simp] theorem toNat_nil : toNat [] = 0 := rfl

theorem toNat_append (bits bits' : List Bool) : toNat (bits ++ bits') = 2 ^ bits'.length * toNat bits + toNat bits' := by
  rw [toNat, List.foldl_append, foldl_toNat]
  rfl

theorem toNat_cons (b : Bool) (bits : List Bool) : toNat (b :: bits) = 2 ^ bits.length * b.toNat + toNat bits := by
  have := toNat_append [b] bits
  simpa [toNat] using this

theorem toNat_lt (bits : List Bool) : toNat bits < 2 ^ bits.length := by
  induction bits with
  | nil => decide
  | cons b bits ih =>
    rw [toNat_cons, List.length_cons, Nat.pow_succ]
    have : b.toNat ≤ 1 := Bool.toNat_le b
    nlinarith

theorem toNat_replicate_false (n : Nat) : toNat (List.replicate n false) = 0 := by
  induction n with
  | zero => rfl
  | succ n ih => rw [List.replicate_succ, toNat_cons, ih]; simp

theorem toNat_pad (n : Nat) (bits : List Bool) : toNat (List.replicate n false ++ bits) = toNat bits := by
  rw [toNat_append, toNat_replicate_false]
  simp

/-- Bit strings of one length are equal when their integers are. -/
theorem toNat_inj {bits bits' : List Bool} (hl : bits.length = bits'.length) (h : toNat bits = toNat bits') : bits = bits' := by
  induction bits generalizing bits' with
  | nil => exact (List.length_eq_zero_iff.mp hl.symm).symm
  | cons b bits ih =>
    obtain ⟨b', bits', rfl⟩ := List.exists_cons_of_length_eq_add_one hl.symm
    have hlen : bits.length = bits'.length := by simpa using hl
    have hlt := toNat_lt bits
    have hlt' := toNat_lt bits'
    rw [toNat_cons, toNat_cons, hlen] at h
    rw [hlen] at hlt
    have hb : b = b' := by
      cases b <;> cases b'
      · rfl
      · simp at h; omega
      · simp at h; omega
      · rfl
    subst hb
    rw [ih hlen (by omega)]

theorem packByte_toNat (a b c d e f g h : Bool) :
    (packByte [a, b, c, d, e, f, g, h]).toNat = toNat [a, b, c, d, e, f, g, h] := by
  revert a b c d e f g h
  decide

end Pack
