import EntropyCoding.Token.Split
import EntropyCoding.Proofs.Bits.Number

/-!
# Splitting is a bijection

A value that is split is put together from its top bit, its high bits, its extra bits and its low
bits, `TokenSplit.assemble`, and its token from the width of the extra bits and the high and low
bits, `TokenSplit.tokenOf`.  Every value and every token above the threshold is of this form, and
splitting and joining pass from one form to the other.

So a 32-bit value is recovered from its token and extra bits, `TokenSplit.join_split`; and a token
with as many bits as belong to it, if they stand for a 32-bit value at all, is what that value
splits into, `TokenSplit.split_of_join`.
-/

namespace EntropyCoding

/-! ## Two parts of a number -/

theorem mul_two_pow_add_lt {a b m n : Nat} (ha : a < 2 ^ m) (hb : b < 2 ^ n) :
    a * 2 ^ n + b < 2 ^ (m + n) := by
  have := Nat.mul_le_mul_right (2 ^ n) (Nat.succ_le_of_lt ha)
  rw [Nat.succ_mul, ← Nat.pow_add] at this
  omega

theorem mul_two_pow_add_div {a b n : Nat} (hb : b < 2 ^ n) : (a * 2 ^ n + b) / 2 ^ n = a := by
  rw [Nat.mul_comm, Nat.mul_add_div (Nat.two_pow_pos n), Nat.div_eq_of_lt hb, Nat.add_zero]

theorem mul_two_pow_add_mod {a b n : Nat} (hb : b < 2 ^ n) : (a * 2 ^ n + b) % 2 ^ n = b := by
  rw [Nat.mul_comm, Nat.mul_add_mod, Nat.mod_eq_of_lt hb]

namespace TokenSplit

/-! ## The parts of a value and of a token -/

section Parts

variable (s : TokenSplit) (width high extra low : Nat)

/-- The value made of high bits, `width` extra bits and low bits, under a top bit. -/
def assemble : Nat :=
  ((2 ^ s.high + high) * 2 ^ width + extra) * 2 ^ s.low + low

/-- The token of a value with `width` extra bits. -/
def tokenOf : Nat :=
  s.threshold + (width - (s.exponent - s.carried)) * 2 ^ s.carried + (high * 2 ^ s.low + low)

theorem assemble_eq : s.assemble width high extra low =
    2 ^ (s.high + width + s.low) + (high * 2 ^ (width + s.low) + (extra * 2 ^ s.low + low)) := by
  simp only [assemble, Nat.pow_add, Nat.add_mul, Nat.mul_assoc, Nat.add_assoc]

theorem threshold_eq : s.threshold = 2 ^ (s.exponent - s.carried) * 2 ^ s.carried := by
  have hc : s.carried ≤ s.exponent := s.carried_le
  rw [threshold, ← Nat.pow_add, Nat.sub_add_cancel hc]

variable {s width high extra low}

section Token

variable (hh : high < 2 ^ s.high) (hl : low < 2 ^ s.low)
include hh hl

theorem carriedBits_lt : high * 2 ^ s.low + low < 2 ^ s.carried :=
  mul_two_pow_add_lt hh hl

theorem tokenOf_mod : s.tokenOf width high low % 2 ^ s.carried = high * 2 ^ s.low + low := by
  rw [tokenOf, threshold_eq, ← Nat.add_mul,
    mul_two_pow_add_mod (carriedBits_lt hh hl)]

theorem tokenOf_mod_low : s.tokenOf width high low % 2 ^ s.low = low := by
  have hdvd : 2 ^ s.low ∣ 2 ^ s.carried := Nat.pow_dvd_pow 2 (Nat.le_add_left _ _)
  rw [← Nat.mod_mod_of_dvd _ hdvd, tokenOf_mod hh hl, mul_two_pow_add_mod hl]

theorem tokenOf_div_low : s.tokenOf width high low / 2 ^ s.low % 2 ^ s.high = high := by
  have h : s.tokenOf width high low % 2 ^ s.carried = high * 2 ^ s.low + low := tokenOf_mod hh hl
  rw [carried, Nat.add_comm, Nat.pow_add] at h
  rw [← Nat.mod_mul_right_div_self, h, mul_two_pow_add_div hl]

/-- The extra bits that a token announces. -/
theorem extraWidth_tokenOf (hw : s.exponent - s.carried ≤ width) :
    s.extraWidth (s.tokenOf width high low) = width := by
  have hge : ¬ s.tokenOf width high low < s.threshold := by
    unfold tokenOf
    omega
  have hsub : s.tokenOf width high low - s.threshold =
      (width - (s.exponent - s.carried)) * 2 ^ s.carried + (high * 2 ^ s.low + low) := by
    unfold tokenOf
    omega
  rw [extraWidth, if_neg hge, hsub, mul_two_pow_add_div (carriedBits_lt hh hl)]
  omega

end Token

theorem two_pow_le_assemble : 2 ^ (s.high + width + s.low) ≤ s.assemble width high extra low :=
  assemble_eq s width high extra low ▸ Nat.le_add_right _ _

/-- The top bit of an assembled value. -/
theorem log2_assemble (hh : high < 2 ^ s.high) (he : extra < 2 ^ width) (hl : low < 2 ^ s.low) :
    (s.assemble width high extra low).log2 = s.high + width + s.low := by
  have hle : 2 ^ (s.high + width + s.low) ≤ s.assemble width high extra low := two_pow_le_assemble
  have hrest := mul_two_pow_add_lt hh (mul_two_pow_add_lt he hl)
  rw [← Nat.add_assoc s.high] at hrest
  have hne : s.assemble width high extra low ≠ 0 := by
    have := Nat.two_pow_pos (s.high + width + s.low)
    omega
  refine (Nat.log2_eq_iff hne).2 ⟨hle, ?_⟩
  rw [assemble_eq, Nat.pow_succ]
  omega

theorem assemble_lt (hh : high < 2 ^ s.high) (he : extra < 2 ^ width) (hl : low < 2 ^ s.low) :
    s.assemble width high extra low < 2 ^ (1 + s.high + width + s.low) := by
  have htop : 2 ^ s.high + high < 2 ^ (1 + s.high) := by
    rw [Nat.pow_add]
    omega
  exact mul_two_pow_add_lt (mul_two_pow_add_lt htop he) hl

theorem threshold_le_assemble (hw : s.exponent - s.carried ≤ width) :
    s.threshold ≤ s.assemble width high extra low := by
  have hc : s.high + s.low ≤ s.exponent := s.carried_le
  unfold carried at hw
  exact Nat.le_trans (Nat.pow_le_pow_right (by decide) (by omega)) two_pow_le_assemble

/-- An assembled value splits into the token of its parts and its extra bits. -/
theorem split_assemble (hw : s.exponent - s.carried ≤ width) (hh : high < 2 ^ s.high)
    (he : extra < 2 ^ width) (hl : low < 2 ^ s.low) :
    s.split (s.assemble width high extra low) = ⟨s.tokenOf width high low, ⟨extra, width⟩⟩ := by
  have hc : s.high + s.low ≤ s.exponent := s.carried_le
  have hbelow := mul_two_pow_add_lt he hl
  have hrest : s.assemble width high extra low - 2 ^ (s.high + width + s.low) =
      high * 2 ^ (width + s.low) + (extra * 2 ^ s.low + low) := by
    rw [assemble_eq, Nat.add_sub_cancel_left]
  have hhigh : (high * 2 ^ (width + s.low) + (extra * 2 ^ s.low + low)) / 2 ^ (width + s.low) =
      high := mul_two_pow_add_div hbelow
  have hlow : (high * 2 ^ (width + s.low) + (extra * 2 ^ s.low + low)) % 2 ^ s.low = low := by
    rw [Nat.pow_add, ← Nat.mul_assoc, ← Nat.add_assoc, ← Nat.add_mul, mul_two_pow_add_mod hl]
  have hextra : s.assemble width high extra low / 2 ^ s.low % 2 ^ width = extra := by
    rw [assemble, mul_two_pow_add_div hl, mul_two_pow_add_mod he]
  have hwidth : s.high + width + s.low - s.carried = width := by
    unfold carried
    omega
  have htop : s.high + width + s.low - s.exponent = width - (s.exponent - s.carried) := by
    unfold carried at *
    omega
  have hbits : s.high + width + s.low - s.high = width + s.low := by omega
  rw [split, if_neg (Nat.not_lt.2 (threshold_le_assemble hw))]
  simp only [log2_assemble hh he hl, hrest, hwidth, htop, hbits, hhigh, hlow, hextra]
  rw [tokenOf, Nat.add_assoc (s.threshold + _)]

/-- The token of parts and extra bits join to the value that they assemble to. -/
theorem join_tokenOf (hw : s.exponent - s.carried ≤ width) (hh : high < 2 ^ s.high)
    (he : extra < 2 ^ width) (hl : low < 2 ^ s.low) (h32 : 1 + s.high + width + s.low ≤ 32) :
    s.join (s.tokenOf width high low) extra = .ok (s.assemble width high extra low) := by
  have hge : ¬ s.tokenOf width high low < s.threshold := by
    unfold tokenOf
    omega
  rw [join, if_neg hge]
  simp only [extraWidth_tokenOf hh hl hw, if_pos h32, tokenOf_div_low hh hl,
    tokenOf_mod_low hh hl, Nat.mod_eq_of_lt he]
  rfl

end Parts

/-! ## Every value and every token has parts -/

/-- A value above the threshold, taken apart. -/
theorem exists_assemble {s : TokenSplit} {v : Nat} (hv : s.threshold ≤ v) :
    ∃ width high extra low, s.exponent - s.carried ≤ width ∧ high < 2 ^ s.high ∧
      extra < 2 ^ width ∧ low < 2 ^ s.low ∧ s.high + width + s.low = v.log2 ∧
      v = s.assemble width high extra low := by
  have hc : s.high + s.low ≤ s.exponent := s.carried_le
  have hne : v ≠ 0 := by
    have := Nat.two_pow_pos s.exponent
    unfold threshold at hv
    omega
  have htop : s.exponent ≤ v.log2 := (Nat.le_log2 hne).2 hv
  let width := v.log2 - (s.high + s.low)
  have hsum : s.high + (width + s.low) = v.log2 := by omega
  have hq : v / 2 ^ (width + s.low) = 2 ^ s.high + v / 2 ^ (width + s.low) % 2 ^ s.high := by
    have hge : 2 ^ s.high ≤ v / 2 ^ (width + s.low) := by
      rw [Nat.le_div_iff_mul_le (Nat.two_pow_pos _), ← Nat.pow_add, hsum]
      exact Nat.log2_self_le hne
    have hlt : v / 2 ^ (width + s.low) < 2 ^ s.high + 2 ^ s.high := by
      rw [Nat.div_lt_iff_lt_mul (Nat.two_pow_pos _), ← Nat.two_mul, ← Nat.pow_succ', ← Nat.pow_add,
        Nat.succ_add, hsum]
      exact Nat.lt_log2_self
    rw [Nat.mod_eq_sub_mod hge, Nat.mod_eq_of_lt (by omega)]
    omega
  have hv : v = (v / 2 ^ (width + s.low) * 2 ^ width + v / 2 ^ s.low % 2 ^ width) * 2 ^ s.low
      + v % 2 ^ s.low := by
    have hlow := Nat.div_add_mod' v (2 ^ s.low)
    have hext := Nat.div_add_mod' (v / 2 ^ s.low) (2 ^ width)
    rw [Nat.div_div_eq_div_mul, ← Nat.pow_add, Nat.add_comm s.low] at hext
    rw [hext, hlow]
  refine ⟨width, v / 2 ^ (width + s.low) % 2 ^ s.high, v / 2 ^ s.low % 2 ^ width, v % 2 ^ s.low,
    ?_, Nat.mod_lt _ (Nat.two_pow_pos _), Nat.mod_lt _ (Nat.two_pow_pos _),
    Nat.mod_lt _ (Nat.two_pow_pos _), by omega, ?_⟩
  · unfold carried
    omega
  · rwa [hq] at hv

/-- A token above the threshold, taken apart. -/
theorem exists_tokenOf {s : TokenSplit} {token : Nat} (ht : s.threshold ≤ token) :
    ∃ high low, s.exponent - s.carried ≤ s.extraWidth token ∧ high < 2 ^ s.high ∧
      low < 2 ^ s.low ∧ token = s.tokenOf (s.extraWidth token) high low := by
  let rest := token - s.threshold
  have hwidth : s.extraWidth token = s.exponent - s.carried + rest / 2 ^ s.carried :=
    if_neg (Nat.not_lt.2 ht)
  have hcarried : rest % 2 ^ s.carried =
      rest / 2 ^ s.low % 2 ^ s.high * 2 ^ s.low + rest % 2 ^ s.low := by
    rw [carried, Nat.add_comm s.high, Nat.pow_add, Nat.mod_mul, Nat.add_comm, Nat.mul_comm]
  have hrest := Nat.div_add_mod' rest (2 ^ s.carried)
  refine ⟨rest / 2 ^ s.low % 2 ^ s.high, rest % 2 ^ s.low,
    hwidth ▸ Nat.le_add_right _ _, Nat.mod_lt _ (Nat.two_pow_pos _),
    Nat.mod_lt _ (Nat.two_pow_pos _), ?_⟩
  rw [tokenOf, hwidth, Nat.add_sub_cancel_left, ← hcarried, Nat.add_assoc, hrest]
  omega

/-! ## The bijection -/

variable (s : TokenSplit)

/-- The extra bits have the width that the token announces, and fit it. -/
theorem extra_split (v : Nat) :
    (s.split v).extra.width = s.extraWidth (s.split v).token ∧
      (s.split v).extra.value < 2 ^ (s.split v).extra.width := by
  by_cases hv : v < s.threshold
  · rw [split_of_lt s hv, extraWidth_of_lt s hv]
    exact ⟨rfl, Nat.two_pow_pos 0⟩
  · obtain ⟨width, high, extra, low, hw, hh, he, hl, -, rfl⟩ := exists_assemble (Nat.not_lt.1 hv)
    rw [split_assemble hw hh he hl]
    exact ⟨(extraWidth_tokenOf hh hl hw).symm, he⟩

/-- A 32-bit value has less than 32 extra bits. -/
theorem width_extra_split_lt {v : Nat} (h : v < 2 ^ 32) : (s.split v).extra.width < 32 := by
  by_cases hv : v < s.threshold
  · rw [split_of_lt s hv]
    exact Nat.zero_lt_succ 31
  · obtain ⟨width, high, extra, low, hw, hh, he, hl, hlog, rfl⟩ :=
      exists_assemble (Nat.not_lt.1 hv)
    have hlt := (Nat.log2_lt (n := s.assemble width high extra low) (k := 32) (by
      have : s.threshold ≤ s.assemble width high extra low := threshold_le_assemble hw
      have := Nat.two_pow_pos s.exponent
      unfold threshold at *
      omega)).2 h
    rw [split_assemble hw hh he hl]
    show width < 32
    omega

/-- The token of a 32-bit value has 32 bits. -/
theorem token_split_lt {v : Nat} (h : v < 2 ^ 32) : (s.split v).token < 2 ^ 32 := by
  have hexponent := s.exponent_le
  have hcarried : s.carried ≤ s.exponent := s.carried_le
  have hwidth := s.width_extra_split_lt h
  by_cases hv : v < s.threshold
  · rwa [split_of_lt s hv]
  · obtain ⟨width, high, extra, low, hw, hh, he, hl, -, rfl⟩ := exists_assemble (Nat.not_lt.1 hv)
    rw [split_assemble hw hh he hl] at hwidth ⊢
    have hthreshold : s.threshold ≤ 2 ^ 15 := Nat.pow_le_pow_right Nat.two_pos hexponent
    have hcarry : 2 ^ s.carried ≤ 2 ^ 15 :=
      Nat.pow_le_pow_right Nat.two_pos (Nat.le_trans hcarried hexponent)
    have hplaces : (width - (s.exponent - s.carried)) * 2 ^ s.carried ≤ 31 * 2 ^ 15 :=
      Nat.mul_le_mul (Nat.le_trans (Nat.sub_le _ _) (Nat.le_of_lt_succ hwidth)) hcarry
    have hbits := carriedBits_lt hh hl
    show s.tokenOf width high low < 2 ^ 32
    unfold tokenOf
    omega

/-- A 32-bit value is recovered from its token and its extra bits. -/
theorem join_split {v : Nat} (h : v < 2 ^ 32) :
    s.join (s.split v).token (s.split v).extra.value = .ok v := by
  by_cases hv : v < s.threshold
  · rw [split_of_lt s hv, join_of_lt s hv]
  · have hne : v ≠ 0 := by
      have := Nat.two_pow_pos s.exponent
      unfold threshold at hv
      omega
    have hlt : v.log2 < 32 := (Nat.log2_lt hne).2 h
    obtain ⟨width, high, extra, low, hw, hh, he, hl, hlog, rfl⟩ :=
      exists_assemble (Nat.not_lt.1 hv)
    rw [split_assemble hw hh he hl]
    exact join_tokenOf hw hh he hl (by omega)

theorem join_mod (token bits : Nat) :
    s.join token (bits % 2 ^ s.extraWidth token) = s.join token bits := by
  simp only [join, Nat.mod_mod]

/-- A token and any bits behind it are joined to a value, unless it would not have 32 bits. -/
theorem join_cases (token bits : Nat) :
    (s.threshold ≤ token ∧ 32 < 1 + s.high + s.extraWidth token + s.low ∧
        s.join token bits = .error (.invalidStream .valueTooWide)) ∨
      ∃ v, s.join token bits = .ok v := by
  by_cases ht : token < s.threshold
  · exact .inr ⟨token, join_of_lt s ht bits⟩
  · by_cases hall : 1 + s.high + s.extraWidth token + s.low ≤ 32
    · exact .inr ⟨_, by rw [join, if_neg ht, if_pos hall]⟩
    · exact .inl ⟨Nat.not_lt.1 ht, Nat.not_le.1 hall, by rw [join, if_neg ht, if_neg hall]⟩

/-- A value that has been joined has 32 bits. -/
theorem lt_of_join {s : TokenSplit} {token bits v : Nat} (h : s.join token bits = .ok v) :
    v < 2 ^ 32 := by
  unfold join at h
  split at h
  · next hlt =>
    cases h
    have hexponent := s.exponent_le
    exact Nat.lt_trans hlt (Nat.pow_lt_pow_right (by decide) (by omega))
  · dsimp only at h
    split at h
    · next hall =>
      cases h
      exact Nat.lt_of_lt_of_le
        (assemble_lt (Nat.mod_lt _ (Nat.two_pow_pos _)) (Nat.mod_lt _ (Nat.two_pow_pos _))
          (Nat.mod_lt _ (Nat.two_pow_pos _)))
        (Nat.pow_le_pow_right (by decide) hall)
    · cases h

/-- A token and as many bits as belong to it are what the value joined from them splits into. -/
theorem split_of_join {token bits v : Nat} (hb : bits < 2 ^ s.extraWidth token)
    (h : s.join token bits = .ok v) :
    v < 2 ^ 32 ∧ s.split v = ⟨token, ⟨bits, s.extraWidth token⟩⟩ := by
  refine ⟨lt_of_join h, ?_⟩
  by_cases ht : token < s.threshold
  · rw [join_of_lt s ht] at h
    rw [extraWidth_of_lt s ht] at *
    cases h
    have hbits : bits = 0 := by omega
    rw [split_of_lt s ht, hbits]
  · obtain ⟨high, low, hw, hh, hl, htoken⟩ := exists_tokenOf (Nat.not_lt.1 ht)
    have h32 : 1 + s.high + s.extraWidth token + s.low ≤ 32 := by
      apply Decidable.byContradiction
      intro hwide
      rw [join, if_neg ht] at h
      simp only [if_neg hwide, reduceCtorEq] at h
    have hjoin := join_tokenOf hw hh hb hl h32
    rw [← htoken, h] at hjoin
    cases hjoin
    rw [split_assemble hw hh hb hl, ← htoken]

/-! ## In a stream -/

/-- A split has the parameters that it is made from. -/
theorem eq_of_ofParameters {exponent high low : Nat} {s : TokenSplit}
    (h : ofParameters exponent high low = .ok s) :
    s.exponent = exponent ∧ s.high = high ∧ s.low = low := by
  unfold ofParameters at h
  split at h
  · split at h
    · cases h
      exact ⟨rfl, rfl, rfl⟩
    · cases h
  · cases h

theorem ofParameters_self : ofParameters s.exponent s.high s.low = .ok s := by
  rw [ofParameters, dif_pos s.exponent_le, dif_pos s.carried_le]

theorem writable_fields : Writable s.fields := by
  have he := s.exponent_le
  have h₁ : ceilLog2 (s.exponent + 1) ≤ 4 := ceilLog2_le_iff.2 (by omega)
  have h₂ : ceilLog2 (s.exponent - s.high + 1) ≤ 4 := ceilLog2_le_iff.2 (by omega)
  simp only [fields, writable_cons, writable_nil, maxFieldWidth, and_true]
  omega

/-- A split is read back. -/
theorem takes_read : BitRead.Takes read (fieldBits s.fields) s := by
  have he := s.exponent_le
  have hc := s.carried_le
  have h₁ := BitRead.takes_read (n := 4) (v := s.exponent) (by omega)
  have h₂ := BitRead.takes_read (lt_two_pow_ceilLog2 (show s.high < s.exponent + 1 by omega))
  have h₃ := BitRead.takes_read
    (lt_two_pow_ceilLog2 (show s.low < s.exponent - s.high + 1 by omega))
  have hok := BitRead.takes_require (decide_eq_true (show s.high ≤ s.exponent by omega))
    .splitHighBits
  refine h₁.bind (h₂.bind (hok.bind_nil (h₃.bind ?_)))
  rw [ofParameters_self]
  exact BitRead.takes_pure s

end TokenSplit

end EntropyCoding
