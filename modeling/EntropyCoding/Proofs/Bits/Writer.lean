import EntropyCoding.Bits.Writer

/-!
# What a writer holds

Between two calls less than a byte waits in a writer, and nothing lies above the bits that wait:
`BitWriter.Valid`.  The empty writer is valid and every operation keeps it so.  For a valid writer
`toBits_write` says that a write appends the bits of its field, whatever the alignment, and
`bytesToBits_toBytes` that the bytes hold the bits, followed by zeros up to a full byte.
-/

namespace EntropyCoding

namespace BitWriter

/-- What holds of every writer between two calls. -/
structure Valid (w : BitWriter) : Prop where
  /-- Less than a byte waits. -/
  count_lt : w.count < 8
  /-- Nothing lies above the bits that wait. -/
  pending_lt : w.pending.toNat < 2 ^ w.count

theorem valid_empty : empty.Valid :=
  ⟨by decide, by decide⟩

/-! ## Full bytes -/

def moveByte (w : BitWriter) : BitWriter where
  bytes := w.bytes.push w.pending.toUInt8
  pending := w.pending >>> 8
  count := w.count - 8

theorem moveBytes_succ (k : Nat) (w : BitWriter) :
    moveBytes (k + 1) w = moveBytes k w.moveByte := rfl

theorem toNat_pending_moveByte (w : BitWriter) :
    w.moveByte.pending.toNat = w.pending.toNat / 2 ^ 8 := by
  simp [moveByte, UInt64.toNat_shiftRight, Nat.shiftRight_eq_div_pow]

/-- Moving a full byte moves no bit. -/
theorem toBits_moveByte {w : BitWriter} (h : 8 ≤ w.count) : w.moveByte.toBits = w.toBits := by
  have hbyte : byteBits w.pending.toUInt8 = lowBits 8 w.pending.toNat := by
    rw [byteBits, UInt64.toNat_toUInt8, lowBits_mod]
  have hsplit : lowBits w.count w.pending.toNat =
      lowBits 8 w.pending.toNat ++ lowBits (w.count - 8) (w.pending.toNat / 2 ^ 8) := by
    rw [← lowBits_add, Nat.add_sub_cancel' h]
  rw [toBits, toNat_pending_moveByte, toBits, hsplit, ← hbyte]
  simp [moveByte, bytesToBits]

/-- Moving full bytes moves no bit, and nothing comes to lie above the bits that wait. -/
theorem toBits_moveBytes {k : Nat} {w : BitWriter} (hk : 8 * k ≤ w.count)
    (hp : w.pending.toNat < 2 ^ w.count) :
    (moveBytes k w).toBits = w.toBits ∧ (moveBytes k w).count = w.count - 8 * k ∧
      (moveBytes k w).pending.toNat < 2 ^ (moveBytes k w).count := by
  induction k generalizing w with
  | zero => exact ⟨rfl, rfl, hp⟩
  | succ k ih =>
    have h8 : 8 ≤ w.count := by omega
    have hcount : w.moveByte.count = w.count - 8 := rfl
    have hpending : w.moveByte.pending.toNat < 2 ^ w.moveByte.count := by
      rw [toNat_pending_moveByte, hcount, Nat.div_lt_iff_lt_mul (Nat.two_pow_pos 8), ← Nat.pow_add,
        Nat.sub_add_cancel h8]
      exact hp
    obtain ⟨hbits, hleft, hlt⟩ := ih (w := w.moveByte) (by omega) hpending
    rw [moveBytes_succ]
    exact ⟨hbits.trans (toBits_moveByte h8), by omega, hlt⟩

/-! ## Fields -/

/-- A field beside the bits that wait: it takes the place above them. -/
theorem toNat_or_shiftLeft {p : UInt64} {c v n : Nat} (hp : p.toNat < 2 ^ c) (hn : c + n < 64) :
    (p ||| (UInt64.ofNat (v % 2 ^ n) <<< UInt64.ofNat c)).toNat = p.toNat + v % 2 ^ n * 2 ^ c := by
  have hv : v % 2 ^ n < 2 ^ n := Nat.mod_lt _ (Nat.two_pow_pos n)
  have hn64 : 2 ^ n < 2 ^ 64 := Nat.pow_lt_pow_right (by decide) (by omega)
  have hfit : v % 2 ^ n * 2 ^ c < 2 ^ 64 := by
    calc v % 2 ^ n * 2 ^ c < 2 ^ n * 2 ^ c := Nat.mul_lt_mul_of_pos_right hv (Nat.two_pow_pos c)
      _ = 2 ^ (n + c) := (Nat.pow_add 2 n c).symm
      _ ≤ 2 ^ 64 := Nat.pow_le_pow_right (by decide) (by omega)
  have hc : (UInt64.ofNat c).toNat % 64 = c := by
    rw [UInt64.toNat_ofNat_of_lt' (Nat.lt_trans (by omega : c < 64) (by decide))]
    exact Nat.mod_eq_of_lt (by omega)
  rw [UInt64.toNat_or, UInt64.toNat_shiftLeft, hc,
    UInt64.toNat_ofNat_of_lt' (Nat.lt_trans hv hn64), Nat.shiftLeft_eq, Nat.mod_eq_of_lt hfit,
    Nat.or_comm, Nat.mul_comm, ← Nat.two_pow_add_eq_or_of_lt hp, Nat.add_comm]

/-- The low `n` bits of `v` put above the bits that wait, before full bytes are moved out. -/
def accumulate (w : BitWriter) (v n : Nat) : BitWriter where
  bytes := w.bytes
  pending := w.pending ||| (UInt64.ofNat (v % 2 ^ n) <<< UInt64.ofNat w.count)
  count := w.count + n

theorem write_eq (w : BitWriter) (v n : Nat) :
    w.write v n = moveBytes ((w.accumulate v n).count / 8) (w.accumulate v n) := rfl

section Accumulate

variable {w : BitWriter} (hw : w.Valid) (v : Nat) {n : Nat} (hn : n ≤ maxFieldWidth)
include hw hn

/-- The accumulated number: nothing is shifted out of the accumulator. -/
theorem toNat_pending_accumulate :
    (w.accumulate v n).pending.toNat = w.pending.toNat + v % 2 ^ n * 2 ^ w.count := by
  have hc := hw.count_lt
  unfold maxFieldWidth at hn
  exact toNat_or_shiftLeft hw.pending_lt (by omega)

/-- Nothing lies above the accumulated bits. -/
theorem pending_accumulate_lt :
    (w.accumulate v n).pending.toNat < 2 ^ (w.accumulate v n).count := by
  have hv : v % 2 ^ n + 1 ≤ 2 ^ n := Nat.mod_lt _ (Nat.two_pow_pos n)
  have hmul := Nat.mul_le_mul_right (2 ^ w.count) hv
  have hp := hw.pending_lt
  have hpow : 2 ^ (w.accumulate v n).count = 2 ^ n * 2 ^ w.count := by
    rw [← Nat.pow_add, Nat.add_comm n]
    rfl
  rw [toNat_pending_accumulate hw v hn, hpow]
  rw [Nat.add_mul] at hmul
  omega

/-- Accumulating appends the bits of the field. -/
theorem toBits_accumulate : (w.accumulate v n).toBits = w.toBits ++ lowBits n v := by
  have hdiv : (w.accumulate v n).pending.toNat / 2 ^ w.count = v % 2 ^ n := by
    rw [toNat_pending_accumulate hw v hn, Nat.add_mul_div_right _ _ (Nat.two_pow_pos _),
      Nat.div_eq_of_lt hw.pending_lt, Nat.zero_add]
  have hmod : (w.accumulate v n).pending.toNat % 2 ^ w.count = w.pending.toNat := by
    rw [toNat_pending_accumulate hw v hn, Nat.add_mul_mod_self_right,
      Nat.mod_eq_of_lt hw.pending_lt]
  have hlow : lowBits w.count (w.accumulate v n).pending.toNat =
      lowBits w.count w.pending.toNat := by
    rw [← hmod, lowBits_mod]
  rw [toBits, show (w.accumulate v n).count = w.count + n from rfl, lowBits_add, hdiv, hlow,
    lowBits_mod, ← List.append_assoc]
  rfl

/-- A write leaves a valid writer. -/
theorem Valid.write : (w.write v n).Valid := by
  obtain ⟨-, hleft, hlt⟩ := toBits_moveBytes (Nat.mul_div_le (w.accumulate v n).count 8)
    (pending_accumulate_lt hw v hn)
  rw [write_eq]
  exact ⟨by omega, hlt⟩

/-- A write appends the bits of its field. -/
theorem toBits_write : (w.write v n).toBits = w.toBits ++ lowBits n v := by
  obtain ⟨hbits, -, -⟩ := toBits_moveBytes (Nat.mul_div_le (w.accumulate v n).count 8)
    (pending_accumulate_lt hw v hn)
  rw [write_eq, hbits, toBits_accumulate hw v hn]

end Accumulate

theorem Valid.write_zero {w : BitWriter} (hw : w.Valid) (v : Nat) : w.write v 0 = w := by
  have hzero : UInt64.ofNat (v % 2 ^ 0) <<< UInt64.ofNat w.count = 0 := by
    rw [Nat.pow_zero, Nat.mod_one]
    exact UInt64.zero_shiftLeft
  rw [write_eq, accumulate, hzero, UInt64.or_zero, Nat.add_zero, Nat.div_eq_of_lt hw.count_lt]
  rfl

/-- Writing fields leaves a valid writer. -/
theorem Valid.writeFields {w : BitWriter} (hw : w.Valid) {fields : List Field}
    (hf : Writable fields) : (w.writeFields fields).Valid := by
  induction fields generalizing w with
  | nil => exact hw
  | cons f fields ih =>
    obtain ⟨hf, hfs⟩ := writable_cons.1 hf
    exact ih (hw.write f.value hf) hfs

/-- Writing fields appends their bits. -/
theorem toBits_writeFields {w : BitWriter} (hw : w.Valid) {fields : List Field}
    (hf : Writable fields) : (w.writeFields fields).toBits = w.toBits ++ fieldBits fields := by
  induction fields generalizing w with
  | nil => simp
  | cons f fields ih =>
    obtain ⟨hf, hfs⟩ := writable_cons.1 hf
    rw [writeFields_cons, ih (hw.write f.value hf) hfs, toBits_write hw f.value hf, fieldBits_cons,
      List.append_assoc]
    rfl

theorem bitsWritten_writeFields {w : BitWriter} (hw : w.Valid) {fields : List Field}
    (hf : Writable fields) :
    (w.writeFields fields).bitsWritten = w.bitsWritten + (fieldBits fields).length := by
  rw [← length_toBits, toBits_writeFields hw hf, List.length_append, length_toBits]

/-! ## Bytes -/

theorem Valid.padToByte {w : BitWriter} (hw : w.Valid) : w.padToByte.Valid := by
  unfold BitWriter.padToByte
  split
  · exact hw
  · exact ⟨Nat.zero_lt_succ 7, Nat.zero_lt_one⟩

/-- The bytes hold the bits, the last byte filled with zeros. -/
theorem bytesToBits_toBytes {w : BitWriter} (hw : w.Valid) :
    ∃ n < 8, bytesToBits w.toBytes.toList = w.toBits ++ List.replicate n false := by
  have hc := hw.count_lt
  unfold toBytes BitWriter.padToByte
  split
  · next h => exact ⟨0, by decide, by simp [toBits, h]⟩
  · refine ⟨8 - w.count, by omega, ?_⟩
    have hbyte : byteBits w.pending.toUInt8 =
        lowBits w.count w.pending.toNat ++ List.replicate (8 - w.count) false := by
      have h0 : w.pending.toNat / 2 ^ w.count = 0 := Nat.div_eq_of_lt hw.pending_lt
      rw [byteBits, UInt64.toNat_toUInt8, lowBits_mod, ← lowBits_zero_right, ← h0, ← lowBits_add,
        Nat.add_sub_cancel' (by omega)]
    rw [toBits, List.append_assoc, ← hbyte]
    simp [bytesToBits]

end BitWriter

theorem BitWrite.put_eq_ok_iff {fields : List Field} {w w' : BitWriter} :
    BitWrite.put fields w = .ok () w' ↔ w' = w.writeFields fields := by
  constructor
  · intro h
    cases h
    rfl
  · rintro rfl
    rfl

end EntropyCoding
