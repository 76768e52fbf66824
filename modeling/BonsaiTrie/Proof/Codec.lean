import BonsaiTrie.Impl.Database

/-!
# The codecs

The bit loops of the path codec write the length and the packed bits
(`Path.encode_eq`) and read them back (`Path.decode_encode`), so that the path
of a node is known from its database key. A decoder `Reads` bytes when it
gives their value and leaves the rest of the input; from this rule for each
part follows the round trip of the nodes that can be stored (`Node.decode_encode`).
-/

namespace Bonsai

open Pack

/-! ## Paths -/

namespace Path

/-- The loop of `encode` only adds to the bytes written. -/
theorem foldl_encodeBit (p : Path) (dest : ByteVec) (s pos : UInt8) :
    p.foldl encodeBit (dest, s, pos) =
      (dest ++ (p.foldl encodeBit ([], s, pos)).1, (p.foldl encodeBit ([], s, pos)).2) := by
  induction p generalizing dest s pos with
  | nil => simp
  | cons b p ih =>
    simp only [List.foldl_cons]
    have hstep : encodeBit (dest, s, pos) b =
        (dest ++ (encodeBit ([], s, pos) b).1, (encodeBit ([], s, pos) b).2) := by
      simp only [encodeBit]
      split <;> simp
    rw [hstep, ih, ih (encodeBit ([], s, pos) b).1]
    simp

theorem foldl_encodeBit_byte (a b c d e f g h : Bool) :
    [a, b, c, d, e, f, g, h].foldl encodeBit ([], 0, 7) = ([packByte [a, b, c, d, e, f, g, h]], 0, 7) := by
  revert a b c d e f g h; decide

/-- Fewer than eight bits stay in the byte being filled. -/
theorem foldl_encodeBit_short {p : Path} (hne : p ≠ []) (h : p.length < 8) :
    p.foldl encodeBit ([], 0, 7) = ([], packByte p, UInt8.ofNat (7 - p.length)) := by
  rcases p with _ | ⟨a, _ | ⟨b, _ | ⟨c, _ | ⟨d, _ | ⟨e, _ | ⟨f, _ | ⟨g, _ | ⟨i, l⟩⟩⟩⟩⟩⟩⟩⟩
  · exact (hne rfl).elim
  · revert a; decide
  · revert a b; decide
  · revert a b c; decide
  · revert a b c d; decide
  · revert a b c d e; decide
  · revert a b c d e f; decide
  · revert a b c d e f g; decide
  · simp only [List.length_cons] at h; omega

/-- What the loop leaves, with the last byte if one is open. -/
def finish (st : ByteVec × UInt8 × UInt8) : ByteVec := if st.2.2 < 7 then st.1 ++ [st.2.1] else st.1

theorem finish_foldl_encodeBit (p : Path) : finish (p.foldl encodeBit ([], 0, 7)) = pack p := by
  induction p using pack.induct with
  | case1 => rfl
  | case2 a b c d e f g h rest ih =>
    rw [show a :: b :: c :: d :: e :: f :: g :: h :: rest = [a, b, c, d, e, f, g, h] ++ rest from rfl,
      List.foldl_append, foldl_encodeBit_byte, foldl_encodeBit]
    rw [show [a, b, c, d, e, f, g, h] ++ rest = a :: b :: c :: d :: e :: f :: g :: h :: rest from rfl, pack, ← ih]
    simp only [finish]
    split <;> simp
  | case3 bs hne hl =>
    have hl := length_lt_eight hl
    have hpos := List.length_pos_of_ne_nil hne
    rw [foldl_encodeBit_short hne hl, pack_short hne hl, finish, if_pos]
    · rfl
    · rw [UInt8.lt_iff_toNat_lt, UInt8.toNat_ofNat']
      show (7 - bs.length) % 256 < 7
      omega

/-- A path is encoded as its length and its packed bits. -/
theorem encode_eq (p : Path) : encode p = UInt8.ofNat p.length :: pack p := by
  have h : encode p = finish (p.foldl encodeBit ([UInt8.ofNat p.length], 0, 7)) := rfl
  rw [h, foldl_encodeBit, ← finish_foldl_encodeBit]
  simp only [finish]
  split <;> simp

@[simp] theorem encode_nil : encode [] = [0] := rfl

/-- The loop of `decode` on the bits of one byte. -/
theorem decodeLoop_byte (n : Nat) (x : UInt8) (input : ByteVec) (bits : Path) :
    decodeLoop (n + 8) (x :: input) none 7 bits = decodeLoop n input none 7 (bits ++ unpackByte x) := by
  simp [decodeLoop, readByte, unpackByte]

theorem decodeLoop_short {n : Nat} (x : UInt8) (input : ByteVec) (bits : Path) (h₀ : 0 < n) (h : n < 8) :
    decodeLoop n (x :: input) none 7 bits = some (bits ++ (unpackByte x).take n, input) := by
  interval_cases n <;> simp [decodeLoop, readByte, unpackByte]

theorem decodeLoop_pack (p : Path) (rest : ByteVec) (bits : Path) :
    decodeLoop p.length (pack p ++ rest) none 7 bits = some (bits ++ p, rest) := by
  induction p using pack.induct generalizing bits with
  | case1 => simp [decodeLoop, pack]
  | case2 a b c d e f g h tail ih =>
    rw [pack, List.cons_append]
    simp only [List.length_cons]
    rw [decodeLoop_byte, unpackByte_packByte, ih]
    simp
  | case3 bs hne hl =>
    have hl := length_lt_eight hl
    rw [pack_short hne hl, List.singleton_append, decodeLoop_short _ _ _ (List.length_pos_of_ne_nil hne) hl,
      unpackByte_packByte_of_le hl.le]
    simp

/-- A path comes back from its encoding, whatever follows. -/
theorem decode_encode {p : Path} (rest : ByteVec) (h : p.length ≤ 255) :
    decode (encode p ++ rest) = some (p, rest) := by
  rw [encode_eq, List.cons_append]
  simp only [decode, readByte, Option.bind_eq_bind, Option.bind_some]
  rw [UInt8.toNat_ofNat', Nat.mod_eq_of_lt (by omega), decodeLoop_pack]
  rfl

/-- No encoding is the front of another. -/
theorem encode_append_inj {p q : Path} {rest rest' : ByteVec} (hp : p.length ≤ 255) (hq : q.length ≤ 255)
    (h : encode p ++ rest = encode q ++ rest') : p = q ∧ rest = rest' := by
  have hd := decode_encode rest hp
  rw [h, decode_encode rest' hq] at hd
  simp only [Option.some.injEq, Prod.mk.injEq] at hd
  exact ⟨hd.1.symm, hd.2.symm⟩

theorem encode_inj {p q : Path} (hp : p.length ≤ 255) (hq : q.length ≤ 255) (h : encode p = encode q) : p = q :=
  (encode_append_inj hp hq (show p.encode ++ [] = q.encode ++ [] by simpa using h)).1

theorem length_encode (p : Path) : (encode p).length = sizeHint p := by
  rw [encode_eq, List.length_cons, length_pack, sizeHint]
  omega

/-- The loop of `decode` on any input takes the bytes that hold the bits, if they are there. -/
theorem decodeLoop_eq (n : Nat) (input : ByteVec) (bits : Path) :
    decodeLoop n input none 7 bits =
      if input.length < (n + 7) / 8 then none
      else some (bits ++ (unpack input).take n, input.drop ((n + 7) / 8)) := by
  induction input generalizing n bits with
  | nil =>
    cases n with
    | zero => simp [decodeLoop]
    | succ n =>
      rw [if_pos (by simp only [List.length_nil]; omega)]
      rfl
  | cons x input ih =>
    have hunpack : unpack (x :: input) = unpackByte x ++ unpack input := List.flatMap_cons
    have hlen : (unpackByte x).length = 8 := by simp [unpackByte]
    by_cases h₀ : n = 0
    · subst h₀
      simp [decodeLoop]
    by_cases h₈ : n < 8
    · have hone : (n + 7) / 8 = 1 := by omega
      rw [decodeLoop_short x input bits (by omega) h₈, hone, if_neg (by simp), hunpack,
        List.take_append_of_le_length (by omega)]
      rfl
    · obtain ⟨m, rfl⟩ : ∃ m, n = m + 8 := ⟨n - 8, by omega⟩
      have hbytes : (m + 8 + 7) / 8 = (m + 7) / 8 + 1 := by omega
      have htake : (unpackByte x ++ unpack input).take (m + 8) = unpackByte x ++ (unpack input).take m := by
        rw [List.take_append, List.take_of_length_le (by omega), hlen, Nat.add_sub_cancel]
      rw [decodeLoop_byte, ih, hbytes, hunpack, htake, List.length_cons, List.drop_succ_cons, List.append_assoc]
      simp only [Nat.add_lt_add_iff_right]

theorem length_unpack (input : ByteVec) : (unpack input).length = 8 * input.length := by
  induction input with
  | nil => rfl
  | cons x input ih =>
    rw [unpack, List.flatMap_cons, List.length_append, ← unpack, ih]
    simp only [unpackByte, List.length_map, List.length_cons, List.length_nil]
    omega

end Path

/-! ## Key slices -/

namespace BitSlice

@[simp] theorem upTo_bits (s : BitSlice) (h : Nat) : (s.upTo h).bits = s.bits.take h := rfl
@[simp] theorem upTo_head (s : BitSlice) (h : Nat) : (s.upTo h).head = s.head := rfl

/-- The bytes of slices of one length, that start at one bit, are equal only when the bits are. -/
theorem bits_inj {s s' : BitSlice} (hh : s.head = s'.head) (hl : s.bits.length = s'.bits.length)
    (h : bitsliceToBytes s = bitsliceToBytes s') : s.bits = s'.bits := by
  by_cases he : s.bits = []
  · rw [he, List.length_nil] at hl
    rw [he, List.length_eq_zero_iff.mp hl.symm]
  · have he' : s'.bits ≠ [] := fun h0 => he (List.length_eq_zero_iff.mp (by rw [hl, h0]; rfl))
    simp only [bitsliceToBytes, List.isEmpty_iff, he, he', if_false, List.cons.injEq] at h
    have := pack_inj (by simp [hh, hl]) h.2
    rw [hh] at this
    exact List.append_cancel_left this

/-- How many they are does not depend on the bits. -/
theorem length_bytes {s s' : BitSlice} (hh : s.head = s'.head) (hl : s.bits.length = s'.bits.length) :
    (bitsliceToBytes s).length = (bitsliceToBytes s').length := by
  have he : s.bits.isEmpty = s'.bits.isEmpty := by
    rw [Bool.eq_iff_iff, List.isEmpty_iff, List.isEmpty_iff, ← List.length_eq_zero_iff, hl, List.length_eq_zero_iff]
  simp only [bitsliceToBytes, he, rawSlice]
  split
  · rfl
  · simp [length_pack, hh, hl]

/-- The bytes of a slice that starts at the first bit of a byte are those of the path. -/
theorem bytes_eq_encode {s : BitSlice} (hh : s.head = 0) (h : s.bits ≠ []) :
    bitsliceToBytes s = Path.encode s.bits := by
  rw [Path.encode_eq, bitsliceToBytes, if_neg (by simpa [List.isEmpty_iff] using h)]
  simp [len, rawSlice, hh]

end BitSlice

/-- The path codec is exact: a path comes back and leaves what follows, takes the bytes it announces,
is no front of another one, and is spelled as a key is; and whatever is read has the length it begins
with, or ends before that. -/
theorem Path.codec_exact :
    (∀ p : Path, p.length ≤ 255 →
      (∀ rest, Path.decode (Path.encode p ++ rest) = some (p, rest)) ∧
      (Path.encode p).length = Path.sizeHint p ∧
      (∀ q : Path, q.length ≤ 255 → q ≠ p → ¬ Path.encode p <+: Path.encode q) ∧
      ∀ s : BitSlice, s.head = 0 → s.bits = p → p ≠ [] → bitsliceToBytes s = Path.encode p) ∧
    ∀ input : ByteVec,
      (Path.decode input = none → input = [] ∨
        ∃ (len : UInt8) (body : ByteVec), input = len :: body ∧ body.length < (len.toNat + 7) / 8) ∧
      ∀ (p : Path) (rest : ByteVec), Path.decode input = some (p, rest) →
        ∃ (len : UInt8) (body : ByteVec), input = len :: (body ++ rest) ∧ p.length = len.toNat ∧
          body.length = (len.toNat + 7) / 8 := by
  refine ⟨fun p hp => ⟨fun rest => Path.decode_encode rest hp, Path.length_encode p, ?_, ?_⟩, fun input => ?_⟩
  · rintro q hq hne ⟨rest, h⟩
    have : Path.encode p ++ rest = Path.encode q ++ [] := by rw [h, List.append_nil]
    exact hne (Path.encode_append_inj hp hq this).1.symm
  · rintro s hs rfl hne
    exact BitSlice.bytes_eq_encode hs hne
  · cases input with
    | nil => exact ⟨fun _ => .inl rfl, nofun⟩
    | cons len input =>
      have hdec : Path.decode (len :: input) = Path.decodeLoop len.toNat input none 7 [] := rfl
      rw [hdec, Path.decodeLoop_eq]
      by_cases hlen : input.length < (len.toNat + 7) / 8
      · rw [if_pos hlen]
        exact ⟨fun _ => .inr ⟨len, input, rfl, hlen⟩, nofun⟩
      · rw [if_neg hlen]
        refine ⟨nofun, fun p rest h => ?_⟩
        obtain ⟨rfl, rfl⟩ := Prod.mk.inj (Option.some.inj h)
        refine ⟨len, input.take ((len.toNat + 7) / 8), by rw [List.take_append_drop], ?_, ?_⟩
        · rw [List.nil_append, List.length_take, Path.length_unpack]
          omega
        · rw [List.length_take]
          omega

theorem Path.codec_exact_nine :
    Path.decode (Path.encode [true, false, true, true, false, false, true, false, true] ++ [7]) =
      some ([true, false, true, true, false, false, true, false, true], [7]) :=
  (Path.codec_exact.1 [true, false, true, true, false, false, true, false, true] (by decide)).1 [7]

/-! ## Nodes -/

namespace Decoder

/-- The decoder gives the value of the bytes and leaves what follows them. -/
def Reads {α : Type} (d : Decoder α) (bytes : ByteVec) (v : α) : Prop := ∀ rest, d (bytes ++ rest) = .ok (v, rest)

theorem Reads.bind {α β : Type} {d : Decoder α} {f : α → Decoder β} {bs bs' : ByteVec} {v : α} {w : β}
    (h : d.Reads bs v) (h' : (f v).Reads bs' w) : (d >>= f).Reads (bs ++ bs') w := by
  intro rest
  have hb : (d >>= f) (bs ++ bs' ++ rest) = (d (bs ++ bs' ++ rest)).bind fun r => f r.1 r.2 := rfl
  rw [hb, List.append_assoc, h, ← h' rest]
  rfl

theorem reads_pure {α : Type} (v : α) : (pure v : Decoder α).Reads [] v := fun _ => rfl

theorem Reads.bind_pure {α β : Type} {d : Decoder α} {g : α → β} {bs : ByteVec} {v : α} (h : d.Reads bs v) :
    (d >>= fun a => pure (g a)).Reads bs (g v) := by
  have := Reads.bind (f := fun a => pure (g a)) h (reads_pure (g v))
  rwa [List.append_nil] at this

theorem Reads.map {α β : Type} {d : Decoder α} {g : α → β} {bs : ByteVec} {v : α} (h : d.Reads bs v) :
    (g <$> d).Reads bs (g v) := by
  intro rest
  have hb : (g <$> d) (bs ++ rest) = (d (bs ++ rest)).bind fun r => .ok (g r.1, r.2) := rfl
  rw [hb, h]
  rfl

theorem reads_byte (b : UInt8) : byte.Reads [b] b := fun _ => rfl

theorem Reads.cons {β : Type} {f : UInt8 → Decoder β} {b : UInt8} {bs : ByteVec} {w : β} (h : (f b).Reads bs w) :
    (byte >>= f).Reads (b :: bs) w := (reads_byte b).bind h

theorem reads_felt [FeltCodec] (v : Felt) : felt.Reads (FeltCodec.encode v) v := fun rest => by
  rw [felt, FeltCodec.decode_encode]

theorem reads_path {p : Path} (h : p.length ≤ 255) : path.Reads p.encode p := fun rest => by
  rw [path, Path.decode_encode rest h]

theorem reads_natLe {k x : Nat} (h : x < 256 ^ k) : (natLe k).Reads (bytesLe k x) x := by
  induction k generalizing x with
  | zero =>
    rw [show x = 0 by simpa using h]
    exact reads_pure 0
  | succ k ih =>
    have hx : x = (UInt8.ofNat (x % 256)).toNat + 256 * (x / 256) := by
      rw [UInt8.toNat_ofNat']
      omega
    have hdiv : x / 256 < 256 ^ k := by
      rw [Nat.div_lt_iff_lt_mul (by decide)]
      rwa [← Nat.pow_succ]
    have := Reads.cons (f := fun b => natLe k >>= fun y => pure (b.toNat + 256 * y)) (b := UInt8.ofNat (x % 256))
      (ih hdiv).bind_pure
    rwa [← hx] at this

variable [FeltCodec]

theorem reads_optionFelt (v : Option Felt) : optionFelt.Reads (encodeOptionFelt v) v := by
  cases v with
  | none => exact Reads.cons (reads_pure none)
  | some v => exact Reads.cons (reads_felt v).map

theorem reads_nodeHandle {h : NodeHandle} {bs : ByteVec} (he : h.encode = some bs) : nodeHandle.Reads bs h := by
  cases h with
  | hash v =>
    simp only [NodeHandle.encode, Option.some.injEq] at he
    subst he
    exact Reads.cons (reads_felt v).map
  | inMemory k => simp [NodeHandle.encode] at he

theorem reads_binary {b : BinaryNode} {bs : ByteVec} (hb : b.height < 2 ^ 64)
    (he : (Node.binary b).encode = some bs) : node.Reads bs (.binary b) := by
  obtain ⟨hash, height, left, right⟩ := b
  simp only [Node.encode, Option.bind_eq_bind, Option.bind_eq_some_iff, Option.some.injEq] at he
  obtain ⟨lbs, hl, rbs, hr, rfl⟩ := he
  refine Reads.cons ?_
  rw [List.append_assoc, List.append_assoc]
  exact (reads_optionFelt hash).bind <| (reads_natLe hb).bind <| (reads_nodeHandle hl).bind
    (reads_nodeHandle hr).bind_pure

theorem reads_edge {e : EdgeNode} {bs : ByteVec} (hh : e.height < 2 ^ 64) (hp : e.path.length ≤ 255)
    (he : (Node.edge e).encode = some bs) : node.Reads bs (.edge e) := by
  obtain ⟨hash, height, path, child⟩ := e
  simp only [Node.encode, Option.bind_eq_bind, Option.bind_eq_some_iff, Option.some.injEq] at he
  obtain ⟨cbs, hc, rfl⟩ := he
  refine Reads.cons ?_
  rw [List.append_assoc, List.append_assoc]
  exact (reads_optionFelt hash).bind <| (reads_natLe hh).bind <| (reads_path hp).bind (reads_nodeHandle hc).bind_pure

end Decoder

/-- What the codec needs of a node: a height of eight bytes, a path length of one. -/
def Node.Fits : Node → Prop
  | .binary b => b.height < 2 ^ 64
  | .edge e => e.height < 2 ^ 64 ∧ e.path.length ≤ 255

/-- A stored node comes back. -/
theorem Node.decode_encode [FeltCodec] {node : Node} {bs : ByteVec} (hf : node.Fits) (he : node.encode = some bs) :
    Node.decode bs = .ok node := by
  have hr : Decoder.node.Reads bs node := by
    cases node with
    | binary b => exact Decoder.reads_binary hf he
    | edge e => exact Decoder.reads_edge hf.1 hf.2 he
  have := hr []
  rw [List.append_nil] at this
  rw [Node.decode, this]
  rfl

end Bonsai
