import EntropyCoding.Proofs.Model.Distribution
import EntropyCoding.Proofs.Prefix.Decoder

/-!
# Prefix codes are read back

A degenerate code is sent as the symbol it stands for, which is the last one of its alphabet; every
other code is sent as its depths.  So every valid code is read back, `takes_readPrefixCode`.  That
the long form has two symbols at least is a matter of the code space: one codeword cannot fill it.
-/

namespace EntropyCoding

open BitRead

namespace PrefixCode

/-- A degenerate code stands for its last symbol. -/
theorem eq_replicate_of_single? {c : PrefixCode} {symbol : Nat} (h : c.single? = some symbol) :
    c.alphabetSize = symbol + 1 ∧ c.depths.toList = List.replicate (symbol + 1) 0 := by
  unfold single? at h
  split at h
  · next hsingle =>
    obtain ⟨hcoded, hpos⟩ := hsingle
    cases h
    have hsize : c.alphabetSize = c.alphabetSize - 1 + 1 := by omega
    refine ⟨hsize, List.eq_replicate_iff.2 ⟨?_, (coded_eq_zero_iff c).1 hcoded⟩⟩
    rw [← hsize]
    rfl
  · cases h

/-- A symbol with a codeword belongs to the alphabet. -/
theorem lt_alphabetSize_of_codeword {c : PrefixCode} {symbol : Nat} {f : Field}
    (h : c.codeword symbol = .ok f) : symbol < c.alphabetSize := by
  rcases codeword_eq_ok_iff.1 h with ⟨hpos, -⟩ | ⟨hsingle, -⟩
  · rw [← getD_depths] at hpos
    exact lt_length_of_pos hpos
  · rw [(eq_replicate_of_single? hsingle).1]
    exact Nat.lt_succ_self symbol

/-- A code that is not degenerate has a codeword. -/
theorem exists_depth_pos_of_single? {c : PrefixCode} (h : c.single? = none)
    (hsize : 0 < c.alphabetSize) : ∃ d ∈ c.depths.toList, 0 < d := by
  apply Decidable.byContradiction
  intro hnone
  have hcoded : c.coded = 0 := by
    apply (coded_eq_zero_iff c).2
    intro d hd
    exact Nat.eq_zero_of_not_pos fun hpos ↦ hnone ⟨d, hd, hpos⟩
  rw [single?, if_pos ⟨hcoded, hsize⟩] at h
  cases h

/-- A single codeword does not fill the code space. -/
theorem kraftSum_singleton_lt {d : Nat} (h : 0 < d) : kraftSum [d] < codeSpace := by
  have hhalf : 2 ^ (maxDepth - d) ≤ 2 ^ (maxDepth - 1) :=
    Nat.pow_le_pow_right (by decide) (Nat.sub_le_sub_left h maxDepth)
  have hsum : kraftSum [d] ≤ 2 ^ (maxDepth - d) := by
    rw [kraftSum, List.filter_cons]
    split
    · exact Nat.le_refl _
    · exact Nat.zero_le _
  exact Nat.lt_of_le_of_lt (Nat.le_trans hsum hhalf) (by decide)

/-- A code with codewords has two symbols at least. -/
theorem Valid.two_le_alphabetSize {c : PrefixCode} (hc : c.Valid) (h : c.single? = none) :
    2 ≤ c.alphabetSize := by
  have hpos := hc.accepted.alphabetSize_pos
  have hexists := exists_depth_pos_of_single? h hpos
  have hkraft := (ofDepths_eq_ok_iff.1 hc.ofDepths_eq).2.2.1 hexists
  apply Decidable.byContradiction
  intro hlt
  have hone : c.depths.toList.length = 1 := by
    show c.alphabetSize = 1
    omega
  obtain ⟨d, hd⟩ := List.length_eq_one_iff.1 hone
  rw [hd] at hkraft hexists
  obtain ⟨d', hmem, hdpos⟩ := hexists
  rw [List.mem_singleton.1 hmem] at hdpos
  exact absurd hkraft (Nat.ne_of_lt (kraftSum_singleton_lt hdpos))

section

variable {c : PrefixCode} (hc : c.Valid)
include hc

/-- A writer takes the fields of a code. -/
theorem Valid.writable_fields : Writable c.fields := by
  have hmax : maxAlphabet < 2 ^ 32 := by decide
  have hsize := hc.alphabetSize_le
  unfold fields
  split
  · next symbol hsingle =>
    have := (eq_replicate_of_single? hsingle).1
    exact writable_cons.2 ⟨by decide, writable_wordFields (by omega)⟩
  · refine writable_append.2 ⟨writable_cons.2 ⟨by decide, writable_wordFields (by omega)⟩, ?_⟩
    rintro f hf
    obtain ⟨d, -, rfl⟩ := List.mem_map.1 hf
    exact (by decide : 4 ≤ maxFieldWidth)

end

end PrefixCode

/-! ## Reading -/

theorem lt_of_readSymbolId {symbol : Nat} {r r' : BitReader}
    (h : readSymbolId r = .ok symbol r') : symbol < maxAlphabet := by
  obtain ⟨_, _, -, h⟩ := bind_eq_ok_iff.1 h
  obtain ⟨_, _, hrequire, h⟩ := bind_eq_ok_iff.1 h
  obtain ⟨rfl, -⟩ := pure_eq_ok_iff.1 h
  exact of_decide_eq_true (require_eq_ok_iff.1 hrequire).1

theorem mem_of_readAlphabetSize {size : Nat} {fault : StreamFault} {r r' : BitReader}
    (h : readAlphabetSize fault r = .ok size r') : 2 ≤ size ∧ size ≤ maxAlphabet := by
  obtain ⟨_, _, -, h⟩ := bind_eq_ok_iff.1 h
  obtain ⟨_, _, hrequire, h⟩ := bind_eq_ok_iff.1 h
  obtain ⟨rfl, -⟩ := pure_eq_ok_iff.1 h
  have := (require_eq_ok_iff.1 hrequire).1
  rwa [Bool.and_eq_true, decide_eq_true_eq, decide_eq_true_eq] at this

/-- A prefix code is read back. -/
theorem takes_readPrefixCode {c : PrefixCode} (hc : c.Valid) :
    Takes readPrefixCode (fieldBits c.fields) c := by
  have hok := hc.ofDepths_eq
  have hmax := hc.alphabetSize_le
  unfold PrefixCode.fields
  split
  · next symbol hsingle =>
    obtain ⟨hsize, hdepths⟩ := PrefixCode.eq_replicate_of_single? hsingle
    rw [hdepths] at hok
    rw [fieldBits_cons, ← List.append_nil (fieldBits _)]
    refine (takes_readBool true).bind ?_
    exact ((takes_readSymbolId (by omega)).map _).bind (takes_ofExcept hok)
  · next hsingle =>
    have htwo := hc.two_le_alphabetSize hsingle
    have hdepth : ∀ d ∈ c.depths.toList, Takes (read 4) (lowBits 4 d) d := by
      intro d hd
      have := (PrefixCode.ofDepths_eq_ok_iff.1 hok).2.1 d hd
      exact takes_read (Nat.lt_of_le_of_lt this (by decide))
    have hmany := takes_many hdepth
    have hbits : fieldBits (c.depths.toList.map fun depth ↦ ⟨depth, 4⟩) =
        c.depths.toList.flatMap (lowBits 4) := by
      rw [fieldBits, List.flatMap_map]
      rfl
    rw [List.cons_append, fieldBits_cons, fieldBits_append, hbits,
      ← List.append_nil (List.flatMap _ _)]
    refine (takes_readBool false).bind ((takes_readAlphabetSize htwo hmax _).bind ?_)
    exact hmany.bind (takes_ofExcept hok)

/-- A code that has been read is valid. -/
theorem valid_of_readPrefixCode {c : PrefixCode} {r r' : BitReader}
    (h : readPrefixCode r = .ok c r') : c.Valid := by
  obtain ⟨degenerate, r₁, -, h⟩ := bind_eq_ok_iff.1 h
  cases degenerate with
  | true =>
    obtain ⟨depths, _, hdepths, h⟩ := bind_eq_ok_iff.1 h
    obtain ⟨symbol, hid, rfl⟩ := map_eq_ok_iff.1 hdepths
    refine PrefixCode.valid_of_ofDepths (ofExcept_eq_ok_iff.1 h).1 ?_
    rw [List.length_replicate]
    exact lt_of_readSymbolId hid
  | false =>
    obtain ⟨size, _, hsize, h⟩ := bind_eq_ok_iff.1 h
    obtain ⟨depths, _, hdepths, h⟩ := bind_eq_ok_iff.1 h
    refine PrefixCode.valid_of_ofDepths (ofExcept_eq_ok_iff.1 h).1 ?_
    rw [(exists_of_many hdepths).1]
    exact (mem_of_readAlphabetSize hsize).2

end EntropyCoding
