import Baudtime.Pb.RoundTrip

/-!
# The scalar encodings, bit by bit

`encodeVarintPb` writes `sovPb(v)` bytes, and the varint loop of every `Unmarshal` reads
them back. A `sint64` goes through zigzag: `Point.MarshalTo` and `sozPb` compute
`(x << 1) ^ (x >> 63)` with an arithmetic shift, and `Point.Unmarshal` undoes it with
`(v >> 1) ^ ((v & 1) << 63 >> 63)`. The model of the messages takes these expressions by
their values (`zigzag`, `unzigzag`); here the expressions as the code writes them are
evaluated on every 64-bit pattern and shown to agree, `math.MinInt64` and `-1` included.

The arithmetic shift by 63 is the whole difficulty: it is `0` on a non-negative `int64`
and all ones on a negative one (`sshiftRight_sixtyThree`), so each expression splits into
two linear cases.

## Main results

* `toNat_zigzagBits`, `unzigzagBits_eq` — the expressions of the code have the values the
  model uses
* `unzigzagBits_zigzagBits` — `Point.Unmarshal`'s decoding undoes `Point.MarshalTo`'s
* `soz_eq` — `sozPb` is `sovPb` of the zigzag value
* `varint_zigzag_roundTrip` — the four laws together
-/

namespace Baudtime.Pb

open BitVec

/-- `x >> 63` on an `int64`: no bits for a non-negative value, all ones for a negative
one. -/
theorem sshiftRight_sixtyThree (x : BitVec 64) :
    x.sshiftRight 63 = if x.toNat < 2 ^ 63 then 0#64 else allOnes 64 := by
  have hx := x.isLt
  split
  · rw [sshiftRight_eq_of_msb_false (msb_eq_false_iff_two_mul_lt.mpr (by omega))]
    apply eq_of_toNat_eq
    rw [toNat_ushiftRight, Nat.shiftRight_eq_div_pow, Nat.div_eq_of_lt ‹_›, toNat_ofNat]
  · rw [sshiftRight_eq_of_msb_true (msb_eq_true_iff_two_mul_ge.mpr (by omega))]
    apply eq_of_toNat_eq
    rw [toNat_not, toNat_ushiftRight, toNat_not, Nat.shiftRight_eq_div_pow,
      Nat.div_eq_of_lt (by omega), toNat_allOnes]

theorem toNat_zigzagBits (x : UInt64) : (zigzagBits x.toBitVec).toNat = zigzag x := by
  have hx : x.toBitVec.toNat < 2 ^ 64 := x.toBitVec.isLt
  rw [zigzagBits, sshiftRight_sixtyThree, zigzag, show x.toNat = x.toBitVec.toNat from rfl]
  split
  · rw [xor_zero, toNat_shiftLeft, Nat.shiftLeft_eq]
    omega
  · rw [xor_allOnes, toNat_not, toNat_shiftLeft, Nat.shiftLeft_eq]
    omega

theorem unzigzagBits_eq (v : BitVec 64) : unzigzagBits v = (unzigzag v.toNat).toBitVec := by
  have hv : v.toNat < 2 ^ 64 := v.isLt
  have hlow : ((v &&& 1) <<< 63).toNat = v.toNat % 2 * 2 ^ 63 := by
    rw [toNat_shiftLeft, toNat_and, Nat.shiftLeft_eq, show (1 : BitVec 64).toNat = 1 from rfl,
      Nat.and_one_is_mod]
    omega
  apply eq_of_toNat_eq
  rw [unzigzagBits, sshiftRight_sixtyThree, hlow, unzigzag,
    UInt64.toBitVec_eq_of_lt (show _ < 2 ^ 64 by split <;> omega)]
  by_cases h : v.toNat % 2 = 0
  · rw [if_pos (by omega), if_pos h, xor_zero, toNat_ushiftRight, Nat.shiftRight_eq_div_pow]
  · rw [if_neg (by omega), if_neg h, xor_allOnes, toNat_not, toNat_ushiftRight,
      Nat.shiftRight_eq_div_pow]

/-- `Point.Unmarshal` decodes what `Point.MarshalTo` encodes, for every `int64`. -/
theorem unzigzagBits_zigzagBits (x : BitVec 64) : unzigzagBits (zigzagBits x) = x := by
  rw [unzigzagBits_eq, show x = (UInt64.mk x).toBitVec from rfl, toNat_zigzagBits,
    ← Nat.mod_eq_of_lt (zigzag_lt _), unzigzag_zigzag]

example : unzigzagBits (zigzagBits (BitVec.ofInt 64 (-2 ^ 63))) = BitVec.ofInt 64 (-2 ^ 63) := by
  decide

theorem soz_eq (x : UInt64) : soz x = sov (zigzag x) := by
  rw [soz, toNat_zigzagBits]

/-- For every `uint64` `v`, `encodeVarintPb` writes `sovPb(v)` bytes, and the varint loop
reads `v` back from them and stops right after them; for every `int64` `x`, the zigzag
decoding of `Point.Unmarshal` undoes the zigzag encoding of `Point.MarshalTo`, and
`sozPb(x)` is `sovPb` of that encoding. -/
theorem varint_zigzag_roundTrip :
    (∀ v : UInt64, (encodeVarint v.toNat).length = sov v.toNat) ∧
    (∀ (v : UInt64) (dAtA rest : Bytes) (i : Int), 0 ≤ i →
      dAtA.drop i.toNat = encodeVarint v.toNat ++ rest →
      readVarint dAtA i = .ok (v.toNat, i + sov v.toNat)) ∧
    (∀ x : BitVec 64, unzigzagBits (zigzagBits x) = x) ∧
    (∀ x : UInt64, soz x = sov (zigzag x) ∧ (zigzagBits x.toBitVec).toNat = zigzag x) :=
  ⟨fun v => (sov_eq_length _).symm,
    fun v _ _ _ hi hd => by rw [readVarint_encodeVarint v.toNat_lt_size hi hd, sov_eq_length],
    unzigzagBits_zigzagBits, fun x => ⟨soz_eq x, toNat_zigzagBits x⟩⟩

end Baudtime.Pb
