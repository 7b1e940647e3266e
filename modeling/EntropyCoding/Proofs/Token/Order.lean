import EntropyCoding.Proofs.Checked.Split
import Mathlib.Data.Nat.Basic
import Mathlib.Order.Bounds.Defs
import Mathlib.Order.Interval.Set.Defs

/-!
# The values of a token

The values with a given token begin at its base, `TokenSplit.base`, and follow it at equal distances:
one for each number that its extra bits can be, `2 ^ low` apart, see `TokenSplit.token_split_eq_iff`.

If a token carries no low bits the distance is one, so each token owns an interval of values, and
tokens do not decrease as values grow, `TokenSplit.token_split_mono`.  If it carries some, the values of
different tokens are interleaved, and tokens do decrease, `TokenSplit.exists_token_split_lt`.
-/

namespace EntropyCoding

namespace TokenSplit

variable {s : TokenSplit}

/-! ## The base of a token -/

/-- Extra bits are added to the base of a token, above the low bits. -/
theorem join_eq (s : TokenSplit) (token bits : Nat) : s.join token bits =
    (fun b ↦ b + bits % 2 ^ s.extraWidth token * 2 ^ s.low) <$> s.base token := by
  unfold base
  by_cases ht : token < s.threshold
  · rw [join_of_lt s ht, join_of_lt s ht, extraWidth_of_lt s ht, Nat.pow_zero, Nat.mod_one,
      Nat.zero_mul]
    rfl
  · rw [join, join, if_neg ht, if_neg ht]
    dsimp only
    split
    · refine congrArg Except.ok ?_
      rw [Nat.zero_mod, Nat.add_zero, Nat.add_mul]
      exact Nat.add_right_comm _ _ _
    · rfl

theorem exists_base_of_join {token bits v : Nat} (h : s.join token bits = .ok v) :
    ∃ b, s.base token = .ok b ∧ v = b + bits % 2 ^ s.extraWidth token * 2 ^ s.low := by
  rw [join_eq] at h
  obtain ⟨b, hb, rfl⟩ := Except.map_eq_ok_iff.1 h
  exact ⟨b, hb, rfl⟩

/-- The token of a value has a base, and the value lies behind it by its extra bits. -/
theorem exists_base_split {v : Nat} (h : v < 2 ^ 32) :
    ∃ b, s.base (s.split v).token = .ok b ∧ v = b + (s.split v).extra.value * 2 ^ s.low := by
  obtain ⟨hwidth, hvalue⟩ := s.extra_split v
  obtain ⟨b, hb, hv⟩ := exists_base_of_join (s.join_split h)
  rw [← hwidth, Nat.mod_eq_of_lt hvalue] at hv
  exact ⟨b, hb, hv⟩

section Base

variable {token b : Nat} (hb : s.base token = .ok b)
include hb

/-- The values of a token follow its base, one for each number that its extra bits can be. -/
theorem token_split_eq_iff {u : Nat} : u < 2 ^ 32 ∧ (s.split u).token = token ↔
    ∃ extra < 2 ^ s.extraWidth token, u = b + extra * 2 ^ s.low := by
  constructor
  · rintro ⟨hu, rfl⟩
    obtain ⟨b', hb', hv⟩ := exists_base_split (s := s) hu
    obtain ⟨hwidth, hvalue⟩ := s.extra_split u
    cases hb.symm.trans hb'
    exact ⟨_, hwidth ▸ hvalue, hv⟩
  · rintro ⟨extra, hextra, rfl⟩
    have hjoin : s.join token extra = .ok (b + extra * 2 ^ s.low) := by
      rw [join_eq, hb, Nat.mod_eq_of_lt hextra]
      rfl
    obtain ⟨hlt, hsplit⟩ := s.split_of_join hextra hjoin
    exact ⟨hlt, congrArg SplitValue.token hsplit⟩

/-- The base is the least value of a token. -/
theorem isLeast_base : IsLeast {u | u < 2 ^ 32 ∧ (s.split u).token = token} b := by
  constructor
  · refine (token_split_eq_iff hb).2 ⟨0, Nat.two_pow_pos _, ?_⟩
    rw [Nat.zero_mul, Nat.add_zero]
  · intro u hu
    obtain ⟨extra, -, rfl⟩ := (token_split_eq_iff hb).1 hu
    exact Nat.le_add_right _ _

/-- Without low bits the values of a token are an interval. -/
theorem values_eq_Ico (hlow : s.low = 0) :
    {u | u < 2 ^ 32 ∧ (s.split u).token = token} = Set.Ico b (b + 2 ^ s.extraWidth token) := by
  ext u
  refine (token_split_eq_iff hb).trans ?_
  rw [hlow, Nat.pow_zero, Set.mem_Ico]
  constructor
  · rintro ⟨extra, hextra, rfl⟩
    omega
  · rintro ⟨hle, hlt⟩
    exact ⟨u - b, by omega, by omega⟩

end Base

/-! ## The order of tokens -/

theorem threshold_le_tokenOf (width high low : Nat) : s.threshold ≤ s.tokenOf width high low :=
  Nat.le_trans (Nat.le_add_right _ _) (Nat.le_add_right _ _)

section Parts

variable {width width' high high' extra extra' low low' : Nat}

/-- Of two values one has no fewer extra bits if it is no smaller. -/
theorem width_le_of_assemble_le (hh : high' < 2 ^ s.high) (he : extra' < 2 ^ width')
    (hl : low' < 2 ^ s.low)
    (h : s.assemble width high extra low ≤ s.assemble width' high' extra' low') :
    width ≤ width' := by
  apply Nat.le_of_not_lt
  intro hlt
  have htop : 2 ^ (s.high + width + s.low) ≤ s.assemble width high extra low := two_pow_le_assemble
  have hbelow := assemble_lt hh he hl
  have hpow : 2 ^ (1 + s.high + width' + s.low) ≤ 2 ^ (s.high + width + s.low) :=
    Nat.pow_le_pow_right (by decide) (by omega)
  omega

/-- Without low bits, and with as many extra bits, the high bits are in the order of the values. -/
theorem high_le_of_assemble_le (hlow : s.low = 0) (he : extra' < 2 ^ width)
    (hl : low' < 2 ^ s.low)
    (h : s.assemble width high extra low ≤ s.assemble width high' extra' low') : high ≤ high' := by
  apply Nat.le_of_not_lt
  intro hlt
  have hmul := Nat.mul_le_mul_right (2 ^ width)
    (Nat.add_le_add_left (Nat.succ_le_of_lt hlt) (2 ^ s.high))
  rw [Nat.add_succ, Nat.succ_mul] at hmul
  unfold assemble at h
  rw [hlow, Nat.pow_zero] at h hl
  omega

/-- A token with more extra bits is larger, whatever bits it carries. -/
theorem tokenOf_lt_tokenOf (hw : s.exponent - s.carried ≤ width) (hlt : width < width')
    (hh : high < 2 ^ s.high) (hl : low < 2 ^ s.low) :
    s.tokenOf width high low < s.tokenOf width' high' low' := by
  have hbits := carriedBits_lt hh hl
  have hplaces : (width - (s.exponent - s.carried) + 1) * 2 ^ s.carried ≤
      (width' - (s.exponent - s.carried)) * 2 ^ s.carried :=
    Nat.mul_le_mul_right _ (by omega)
  rw [Nat.succ_mul] at hplaces
  unfold tokenOf
  omega

end Parts

/-- Without low bits tokens do not decrease as values grow. -/
theorem token_split_mono (hlow : s.low = 0) {v w : Nat} (h : v ≤ w) :
    (s.split v).token ≤ (s.split w).token := by
  by_cases hw : w < s.threshold
  · rwa [split_of_lt s hw, split_of_lt s (Nat.lt_of_le_of_lt h hw)]
  obtain ⟨width', high', extra', low', hw', hh', he', hl', -, rfl⟩ :=
    exists_assemble (Nat.not_lt.1 hw)
  rw [split_assemble hw' hh' he' hl']
  by_cases hv : v < s.threshold
  · rw [split_of_lt s hv]
    exact Nat.le_trans (Nat.le_of_lt hv) (threshold_le_tokenOf width' high' low')
  obtain ⟨width, high, extra, low, hw, hh, he, hl, -, rfl⟩ := exists_assemble (Nat.not_lt.1 hv)
  rw [split_assemble hw hh he hl]
  rcases Nat.lt_or_eq_of_le (width_le_of_assemble_le hh' he' hl' h) with hlt | rfl
  · exact Nat.le_of_lt (tokenOf_lt_tokenOf hw hlt hh hl)
  · have hhigh := high_le_of_assemble_le hlow he' hl' h
    unfold tokenOf
    rw [hlow, Nat.pow_zero] at hl hl' ⊢
    show _ + (high * 1 + low) ≤ _ + (high' * 1 + low')
    omega

/-- With low bits there are values whose tokens are in the opposite order: they differ in the lowest of
the extra bits, and the low bits of the smaller one are larger. -/
theorem exists_token_split_lt (hlow : 0 < s.low) :
    ∃ v w, v < w ∧ w < 2 ^ 32 ∧ (s.split w).token < (s.split v).token := by
  have hexponent := s.exponent_le
  have hcarried : s.high + s.low ≤ s.exponent := s.carried_le
  let width := s.exponent - s.carried + 1
  have hw : s.exponent - s.carried ≤ width := Nat.le_succ _
  have hh : 0 < 2 ^ s.high := Nat.two_pow_pos _
  have hl : 0 < 2 ^ s.low := Nat.two_pow_pos _
  have hl' : 1 < 2 ^ s.low := Nat.one_lt_two_pow (Nat.pos_iff_ne_zero.1 hlow)
  have he : 0 < 2 ^ width := Nat.two_pow_pos _
  have he' : 1 < 2 ^ width := Nat.one_lt_two_pow (Nat.succ_ne_zero _)
  refine ⟨s.assemble width 0 0 1, s.assemble width 0 1 0, ?_, ?_, ?_⟩
  · unfold assemble
    rw [Nat.add_mul _ 1, Nat.one_mul]
    exact Nat.add_lt_add_left hl' _
  · refine Nat.lt_of_lt_of_le (assemble_lt hh he' hl) (Nat.pow_le_pow_right (by decide) ?_)
    show 1 + s.high + (s.exponent - s.carried + 1) + s.low ≤ 32
    unfold carried
    omega
  · rw [split_assemble hw hh he hl', split_assemble hw hh he' hl]
    exact Nat.add_lt_add_left (Nat.add_lt_add_left Nat.zero_lt_one _) _

end TokenSplit

namespace Checked

/-- For every split whose parameters are in range: the token of a value has a base, found without a
fault, which is the least value with this token, and the value lies behind it by its extra bits, times
`2 ^ low`.  Without low bits the values of a token are the interval that begins at its base.  Tokens are
in the order of values exactly if there are no low bits. -/
theorem tokens_ordered {exponent high low : Nat} {s : TokenSplit}
    (hs : TokenSplit.ofParameters exponent high low = .ok s) :
    (∀ v < 2 ^ 32, split s v = .ok (s.split v) ∧
      ∃ b, s.base (s.split v).token = .ok b ∧ join s (s.split v).token 0 = .ok b ∧
        IsLeast {u | u < 2 ^ 32 ∧ (s.split u).token = (s.split v).token} b ∧
        v = b + (s.split v).extra.value * 2 ^ low ∧
        (low = 0 → v = b + (s.split v).extra.value ∧
          {u | u < 2 ^ 32 ∧ (s.split u).token = (s.split v).token} =
            Set.Ico b (b + 2 ^ s.extraWidth (s.split v).token))) ∧
    ((∀ v w, v ≤ w → w < 2 ^ 32 → (s.split v).token ≤ (s.split w).token) ↔ low = 0) := by
  obtain ⟨rfl, rfl, rfl⟩ := TokenSplit.eq_of_ofParameters hs
  refine ⟨fun v hv ↦ ⟨split_eq s hv, ?_⟩, fun hmono ↦ ?_, fun hlow v w hle _ ↦
    TokenSplit.token_split_mono hlow hle⟩
  · obtain ⟨b, hb, hvalue⟩ := TokenSplit.exists_base_split (s := s) hv
    refine ⟨b, hb, ?_, TokenSplit.isLeast_base hb, hvalue, fun hlow ↦
      ⟨?_, TokenSplit.values_eq_Ico hb hlow⟩⟩
    · rw [join_eq s (s.token_split_lt hv)]
      exact congrArg embedExcept hb
    · rwa [hlow, Nat.pow_zero, Nat.mul_one] at hvalue
  · apply Nat.eq_zero_of_not_pos
    intro hlow
    obtain ⟨v, w, hlt, hw, htoken⟩ := TokenSplit.exists_token_split_lt hlow
    exact Nat.not_lt.2 (hmono v w (Nat.le_of_lt hlt) hw) htoken

/-- The last value of a token without low bits; and a split with low bits, where the next value after
one with a larger token has a smaller one. -/
theorem tokens_ordered_last : ∃ s t,
    TokenSplit.ofParameters 4 2 0 = .ok s ∧ 2 ^ 32 - 1 < 2 ^ 32 ∧
      IsLeast {u | u < 2 ^ 32 ∧ (s.split u).token = (s.split (2 ^ 32 - 1)).token} (7 * 2 ^ 29) ∧
      {u | u < 2 ^ 32 ∧ (s.split u).token = (s.split (2 ^ 32 - 1)).token} =
        Set.Ico (7 * 2 ^ 29) (2 ^ 32) ∧
      TokenSplit.ofParameters 1 0 1 = .ok t ∧ (t.split 6).token < (t.split 5).token ∧
      ¬ ∀ v w, v ≤ w → w < 2 ^ 32 → (t.split v).token ≤ (t.split w).token := by
  have hs : TokenSplit.ofParameters 4 2 0 = .ok ⟨4, 2, 0, by decide, by decide⟩ := rfl
  have ht : TokenSplit.ofParameters 1 0 1 = .ok ⟨1, 0, 1, by decide, by decide⟩ := rfl
  obtain ⟨-, b, hb, -, hleast, -, hinterval⟩ := (tokens_ordered hs).1 (2 ^ 32 - 1) (by decide)
  have hbase : TokenSplit.base ⟨4, 2, 0, by decide, by decide⟩
      (TokenSplit.split ⟨4, 2, 0, by decide, by decide⟩ (2 ^ 32 - 1)).token = .ok (7 * 2 ^ 29) := by
    decide
  cases hbase.symm.trans hb
  exact ⟨_, _, hs, by decide, hleast, (hinterval rfl).2, ht, by decide,
    fun h ↦ absurd ((tokens_ordered ht).2.1 h) (by decide)⟩

end Checked

end EntropyCoding
