import EntropyCoding.Bits.Number
import EntropyCoding.Proofs.Bits.Reader

/-!
# Numbers are read back

The bits of a number of unknown size determine it: `takes_readBelowTop` for what follows the
length, `takes_readWord` for a 32-bit number with its length.
-/

namespace EntropyCoding

theorem two_pow_le_of_ne_zero {v : Nat} (h : v ≠ 0) : 2 ^ (bitLength v - 1) ≤ v := by
  rw [bitLength, if_neg h, Nat.add_sub_cancel]
  exact Nat.log2_self_le h

/-- The fields that follow the length of a number. -/
def belowTopFields (v : Nat) : List Field :=
  if bitLength v ≤ 1 then [] else [⟨v, bitLength v - 1⟩]

theorem numberFields_eq (lengthWidth v : Nat) :
    numberFields lengthWidth v = ⟨bitLength v, lengthWidth⟩ :: belowTopFields v := rfl

/-- A writer takes the fields of a number of at most 57 bits. -/
theorem writable_numberFields {lengthWidth v : Nat} (hw : lengthWidth ≤ maxFieldWidth)
    (hv : bitLength v ≤ 57) : Writable (numberFields lengthWidth v) := by
  rw [numberFields_eq, writable_cons, belowTopFields]
  refine ⟨hw, ?_⟩
  split
  · exact writable_nil
  · refine writable_cons.2 ⟨?_, writable_nil⟩
    show bitLength v - 1 ≤ 56
    omega

theorem writable_wordFields {v : Nat} (hv : v < 2 ^ 32) : Writable (wordFields v) :=
  writable_numberFields (by decide) (Nat.le_trans (bitLength_le_iff.2 hv) (by decide))

namespace BitRead

theorem takes_read_mod (n v : Nat) : Takes (read n) (lowBits n v) (v % 2 ^ n) :=
  lowBits_mod n v ▸ takes_read (Nat.mod_lt v (Nat.two_pow_pos n))

/-- What follows the length of a number is read back. -/
theorem takes_readBelowTop (v : Nat) :
    Takes (readBelowTop (bitLength v)) (fieldBits (belowTopFields v)) v := by
  unfold belowTopFields
  have hlt := lt_two_pow_bitLength v
  have hle : v ≠ 0 → 2 ^ (bitLength v - 1) ≤ v := two_pow_le_of_ne_zero
  match h : bitLength v with
  | 0 =>
    rw [h] at hlt
    obtain rfl : v = 0 := by omega
    exact takes_pure 0
  | 1 =>
    rw [h] at hlt
    have hv : v ≠ 0 := by
      rintro rfl
      cases h
    obtain rfl : v = 1 := by omega
    exact takes_pure 1
  | len + 2 =>
    rw [h] at hlt hle
    have hv : v ≠ 0 := by
      rintro rfl
      cases h
    have htop : 2 ^ (len + 1) + v % 2 ^ (len + 1) = v := by
      have hge : 2 ^ (len + 1) ≤ v := hle hv
      rw [Nat.pow_succ] at hlt
      rw [Nat.mod_eq_sub_mod hge, Nat.mod_eq_of_lt (by omega)]
      omega
    have hread : Takes (readBelowTop (len + 2)) (lowBits (len + 1) v) _ :=
      (takes_read_mod (len + 1) v).bind_pure (2 ^ (len + 1) + ·)
    rw [htop] at hread
    simpa [Field.bits] using hread

/-- A 32-bit number is read back. -/
theorem takes_readWord {v : Nat} (hv : v < 2 ^ 32) :
    Takes readWord (fieldBits (wordFields v)) v := by
  have hlen : bitLength v ≤ 32 := bitLength_le_iff.2 hv
  have hread : Takes (read wordLengthWidth) (lowBits wordLengthWidth (bitLength v)) (bitLength v) :=
    takes_read (Nat.lt_of_le_of_lt hlen (by decide))
  exact hread.bind ((takes_require (decide_eq_true hlen) _).bind_nil (takes_readBelowTop v))

/-- A number that has been read has the length that was announced. -/
theorem lt_of_readBelowTop {len v : Nat} {r r' : BitReader} (h : readBelowTop len r = .ok v r') :
    v < 2 ^ len := by
  match len with
  | 0 =>
    obtain ⟨rfl, -⟩ := pure_eq_ok_iff.1 h
    exact Nat.zero_lt_one
  | 1 =>
    obtain ⟨rfl, -⟩ := pure_eq_ok_iff.1 h
    exact Nat.one_lt_two
  | len + 2 =>
    obtain ⟨low, _, hlow, h⟩ := bind_eq_ok_iff.1 h
    obtain ⟨rfl, -⟩ := pure_eq_ok_iff.1 h
    have := lt_of_read hlow
    rw [Nat.pow_succ 2 (len + 1)]
    omega

theorem lt_of_readWord {v : Nat} {r r' : BitReader} (h : readWord r = .ok v r') : v < 2 ^ 32 := by
  obtain ⟨len, _, -, h⟩ := bind_eq_ok_iff.1 h
  obtain ⟨_, _, hrequire, h⟩ := bind_eq_ok_iff.1 h
  have hlen : len ≤ 32 := of_decide_eq_true (require_eq_ok_iff.1 hrequire).1
  exact Nat.lt_of_lt_of_le (lt_of_readBelowTop h) (Nat.pow_le_pow_right (by decide) hlen)

end BitRead

end EntropyCoding
