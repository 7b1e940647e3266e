import EntropyCoding.Proofs.Checked.Agreement
import EntropyCoding.Proofs.Token.Split

/-!
# Checked splitting

The parameters of a split have 32 bits, and so has the sum of the two that say what a token carries.
Where it does not fit, there is no split: `Checked.ofParameters_eq` says when this happens, and that
otherwise the parameters are taken or refused as they are without a width.

A value is split with 32 bits.  Its top bit is found by counting the zeros above it, so whatever is
subtracted from its place or shifted by it depends on the value being no less than the threshold; the
parts of the token are added up one after another.  Values are joined with 64 bits until it is known
that they have 32.  No step has a fault: `Checked.split_eq`, `Checked.extraWidth_eq` and
`Checked.join_eq`.

So splitting and joining, which undo each other, do so with numbers of 32 bits too, for all values and
for all tokens with any bits behind them: `Checked.split_join_inverse`.
-/

namespace EntropyCoding

namespace Checked

/-- The split with the given parameters, if they are in range and their sum fits. -/
def ofParameters (exponent high low : Nat) : Except Stop TokenSplit :=
  if hexponent : exponent ≤ 15 then
    match hsum : add 32 high low with
    | .error stop => .error stop
    | .ok carried =>
      if hcarried : carried ≤ exponent then
        .ok ⟨exponent, high, low, hexponent, (add_eq_ok_iff.1 hsum).2 ▸ hcarried⟩
      else .error (.error (.invalidConfig .splitCarry))
  else .error (.error (.invalidConfig .splitExponent))

/-- The number of extra bits that follow a token; the largest number if it is too large. -/
def extraWidth (s : TokenSplit) (token : Nat) : Except Stop Nat := do
  let threshold ← shiftLeft 32 1 s.exponent
  if token < threshold then .ok 0
  else do
    let carried ← add 32 s.high s.low
    let least ← sub s.exponent carried
    let more ← shiftRight 32 (← sub token threshold) carried
    .ok (min (least + more) (2 ^ 32 - 1))

def lowMask (width : Nat) : Except Stop Nat :=
  if 32 ≤ width then .ok (2 ^ 32 - 1) else do sub (← shiftLeft 32 1 width) 1

/-- The number of zeros above the top bit of a number of `bits` bits. -/
def leadingZeros (bits v : Nat) : Nat :=
  bits - bitLength v

def split (s : TokenSplit) (v : Nat) : Except Stop SplitValue := do
  let threshold ← shiftLeft 32 1 s.exponent
  if v < threshold then .ok ⟨v, ⟨0, 0⟩⟩
  else do
    let top ← sub 31 (leadingZeros 32 v)
    let rest ← sub v (← shiftLeft 32 1 top)
    let carried ← add 32 s.high s.low
    let places ← shiftLeft 32 (← sub top s.exponent) carried
    let high ← shiftLeft 32 (← shiftRight 32 rest (← sub top s.high)) s.low
    let low := rest &&& (← sub (← shiftLeft 32 1 s.low) 1)
    let token ← add 32 (← add 32 (← add 32 threshold places) high) low
    let width ← sub top carried
    let extra := (← shiftRight 32 v s.low) &&& (← lowMask width)
    .ok ⟨token, ⟨extra, width⟩⟩

/-- The value with the given token and extra bits, if it has at most 32 bits. -/
def join (s : TokenSplit) (token bits : Nat) : Except Stop Nat := do
  let threshold ← shiftLeft 32 1 s.exponent
  if token < threshold then .ok token
  else do
    let width ← extraWidth s token
    let all ← add 64 (← add 64 (← add 64 1 s.high) width) s.low
    if 32 < all then .error (.error (.invalidStream .valueTooWide))
    else do
      let low := token &&& (← sub (← shiftLeft 32 1 s.low) 1)
      let high := (← shiftRight 32 token s.low) &&& (← sub (← shiftLeft 32 1 s.high) 1)
      let top := (← shiftLeft 64 1 s.high) ||| high
      let upper := (← shiftLeft 64 top width) ||| (bits &&& (← lowMask width))
      fit 32 ((← shiftLeft 64 upper s.low) ||| low)

/-! ## Parameters -/

section Parameters

variable (exponent high low : Nat)

/-- A small exponent with two parameters whose sum has more than 32 bits is a fault.  All other
parameters are taken or refused as they are. -/
theorem ofParameters_eq : ofParameters exponent high low =
    if exponent ≤ 15 ∧ 2 ^ 32 ≤ high + low then .error (.fault .overflow)
    else embedExcept (TokenSplit.ofParameters exponent high low) := by
  unfold ofParameters TokenSplit.ofParameters
  by_cases hexponent : exponent ≤ 15
  · rw [dif_pos hexponent, dif_pos hexponent]
    split
    · next stop hsum =>
      obtain ⟨hlarge, rfl⟩ := add_eq_error_iff.1 hsum
      rw [if_pos ⟨hexponent, hlarge⟩]
    · next carried hsum =>
      obtain ⟨hfit, rfl⟩ := add_eq_ok_iff.1 hsum
      rw [if_neg fun h ↦ Nat.not_le.2 hfit h.2]
      split <;> rfl
  · rw [dif_neg hexponent, dif_neg hexponent, if_neg fun h ↦ hexponent h.1]
    rfl

example : ofParameters 0 (2 ^ 32 - 1) 1 = .error (.fault .overflow) := rfl

variable {exponent high low} {s : TokenSplit}

/-- Parameters are taken just if they are in range: then their sum fits. -/
theorem ofParameters_eq_ok_iff :
    ofParameters exponent high low = .ok s ↔ TokenSplit.ofParameters exponent high low = .ok s := by
  rw [ofParameters_eq]
  split
  · next hlarge =>
    refine iff_of_false nofun fun hs ↦ ?_
    obtain ⟨rfl, rfl, rfl⟩ := TokenSplit.eq_of_ofParameters hs
    have hcarried := s.carried_le
    omega
  · exact embedExcept_eq_ok_iff

end Parameters

/-! ## Tokens -/

/-- The extra bits of a token; their number never reaches the largest one. -/
theorem extraWidth_eq (s : TokenSplit) {token : Nat} (h : token < 2 ^ 32) :
    extraWidth s token = .ok (s.extraWidth token) := by
  have hexponent := s.exponent_le
  have hcarried : s.carried ≤ s.exponent := s.carried_le
  have hsum : s.high + s.low = s.carried := rfl
  rw [extraWidth, TokenSplit.extraWidth, TokenSplit.threshold,
    bind_of_eq_ok (shiftLeft_one (by omega))]
  by_cases hlt : token < 2 ^ s.exponent
  · rw [if_pos hlt, if_pos hlt]
  · have hmore : (token - 2 ^ s.exponent) / 2 ^ s.carried ≤ token - 2 ^ s.exponent :=
      Nat.div_le_self _ _
    have hpow : s.exponent < 2 ^ s.exponent := Nat.lt_two_pow_self
    rw [if_neg hlt, if_neg hlt, bind_of_eq_ok (add_eq_ok (by omega)), hsum,
      bind_of_eq_ok (sub_eq_ok hcarried), bind_of_eq_ok (sub_eq_ok (Nat.not_lt.1 hlt)),
      bind_of_eq_ok (shiftRight_eq_ok (by omega) _), Nat.min_eq_left (by omega)]

theorem lowMask_eq {width : Nat} (h : width < 32) : lowMask width = .ok (2 ^ width - 1) := by
  rw [lowMask, if_neg (Nat.not_le.2 h), bind_of_eq_ok (shiftLeft_one h), sub_eq_ok (Nat.two_pow_pos _)]

theorem sub_leadingZeros {v : Nat} (hne : v ≠ 0) (h : v.log2 < 32) :
    sub 31 (leadingZeros 32 v) = .ok v.log2 := by
  rw [leadingZeros, bitLength, if_neg hne, sub_eq_ok (by omega)]
  congr 1
  omega

/-- A value is split. -/
theorem split_eq (s : TokenSplit) {v : Nat} (h : v < 2 ^ 32) : split s v = .ok (s.split v) := by
  have hexponent := s.exponent_le
  have hcarried : s.carried ≤ s.exponent := s.carried_le
  have hsum : s.high + s.low = s.carried := rfl
  rw [split, TokenSplit.split, bind_of_eq_ok (shiftLeft_one (by omega)),
    show 2 ^ s.exponent = s.threshold from rfl]
  by_cases hlt : v < s.threshold
  · rw [if_pos hlt, if_pos hlt]
  rw [if_neg hlt, if_neg hlt]
  have hpos : 0 < s.threshold := Nat.two_pow_pos _
  have hne : v ≠ 0 := by omega
  have htop : s.exponent ≤ v.log2 := (Nat.le_log2 hne).2 (Nat.not_lt.1 hlt)
  have htop32 : v.log2 < 32 := (Nat.log2_lt hne).2 h
  have hle : 2 ^ v.log2 ≤ v := Nat.log2_self_le hne
  -- the sums on the way to the token are no larger than the token
  have htoken := s.token_split_lt h
  rw [TokenSplit.split, if_neg hlt] at htoken
  dsimp only at htoken
  rw [bind_of_eq_ok (sub_leadingZeros hne htop32), bind_of_eq_ok (shiftLeft_one htop32),
    bind_of_eq_ok (sub_eq_ok hle), bind_of_eq_ok (add_eq_ok (by omega)), hsum,
    bind_of_eq_ok (sub_eq_ok htop), bind_of_eq_ok (shiftLeft_eq_ok (by omega) (by omega)),
    bind_of_eq_ok (sub_eq_ok (by omega)), bind_of_eq_ok (shiftRight_eq_ok (by omega) _),
    bind_of_eq_ok (shiftLeft_eq_ok (by omega) (by omega)),
    bind_of_eq_ok (shiftLeft_one (by omega)), bind_of_eq_ok (sub_eq_ok (Nat.two_pow_pos _))]
  dsimp only
  rw [Nat.and_two_pow_sub_one_eq_mod, bind_of_eq_ok (add_eq_ok (by omega)),
    bind_of_eq_ok (add_eq_ok (by omega)), bind_of_eq_ok (add_eq_ok htoken),
    bind_of_eq_ok (sub_eq_ok (Nat.le_trans hcarried htop)), bind_of_eq_ok (shiftRight_eq_ok (by omega) _),
    bind_of_eq_ok (lowMask_eq (by omega)), Nat.and_two_pow_sub_one_eq_mod]

/-- A value is joined. -/
theorem join_eq (s : TokenSplit) {token : Nat} (h : token < 2 ^ 32) (bits : Nat) :
    join s token bits = embedExcept (s.join token bits) := by
  have hexponent := s.exponent_le
  have hcarried : s.high + s.low ≤ s.exponent := s.carried_le
  have hwidth : s.extraWidth token ≤ 2 ^ 33 := by
    unfold TokenSplit.extraWidth
    split
    · exact Nat.zero_le _
    · have : (token - s.threshold) / 2 ^ s.carried ≤ token :=
        Nat.le_trans (Nat.div_le_self _ _) (Nat.sub_le _ _)
      omega
  rw [join, TokenSplit.join, bind_of_eq_ok (shiftLeft_one (by omega)),
    show 2 ^ s.exponent = s.threshold from rfl]
  by_cases hlt : token < s.threshold
  · rw [if_pos hlt, if_pos hlt]
    rfl
  rw [if_neg hlt, if_neg hlt, bind_of_eq_ok (extraWidth_eq s h)]
  generalize s.extraWidth token = width at hwidth
  rw [bind_of_eq_ok (add_eq_ok (by omega)), bind_of_eq_ok (add_eq_ok (by omega)),
    bind_of_eq_ok (add_eq_ok (by omega))]
  by_cases hall : 1 + s.high + width + s.low ≤ 32
  · have hhigh : token / 2 ^ s.low % 2 ^ s.high < 2 ^ s.high := Nat.mod_lt _ (Nat.two_pow_pos _)
    have hextra : bits % 2 ^ width < 2 ^ width := Nat.mod_lt _ (Nat.two_pow_pos _)
    have hlow : token % 2 ^ s.low < 2 ^ s.low := Nat.mod_lt _ (Nat.two_pow_pos _)
    have hvalue : s.assemble width (token / 2 ^ s.low % 2 ^ s.high) (bits % 2 ^ width)
        (token % 2 ^ s.low) < 2 ^ 32 :=
      Nat.lt_of_lt_of_le (TokenSplit.assemble_lt hhigh hextra hlow)
        (Nat.pow_le_pow_right (by decide) hall)
    have htop := or_eq_add hhigh 1
    rw [Nat.one_mul] at htop
    rw [if_neg (Nat.not_lt.2 hall), if_pos hall, bind_of_eq_ok (shiftLeft_one (by omega)),
      bind_of_eq_ok (sub_eq_ok (Nat.two_pow_pos _)), bind_of_eq_ok (shiftRight_eq_ok (by omega) _),
      bind_of_eq_ok (shiftLeft_one (by omega)), bind_of_eq_ok (sub_eq_ok (Nat.two_pow_pos _)),
      bind_of_eq_ok (shiftLeft_one (by omega))]
    dsimp only
    rw [Nat.and_two_pow_sub_one_eq_mod, Nat.and_two_pow_sub_one_eq_mod, htop]
    rw [TokenSplit.assemble] at hvalue
    generalize token / 2 ^ s.low % 2 ^ s.high = high at hvalue hhigh
    have hall' : ((2 ^ s.high + high) * 2 ^ width + bits % 2 ^ width) * 2 ^ s.low < 2 ^ 64 := by
      omega
    have hupper : (2 ^ s.high + high) * 2 ^ width < 2 ^ 64 := by
      have := Nat.le_mul_of_pos_right ((2 ^ s.high + high) * 2 ^ width + bits % 2 ^ width)
        (Nat.two_pow_pos s.low)
      omega
    rw [bind_of_eq_ok (shiftLeft_eq_ok (by omega) hupper), bind_of_eq_ok (lowMask_eq (by omega)),
      Nat.and_two_pow_sub_one_eq_mod, or_eq_add hextra,
      bind_of_eq_ok (shiftLeft_eq_ok (by omega) hall'), or_eq_add hlow, fit_eq_ok hvalue]
    rfl
  · rw [if_pos (Nat.not_le.1 hall), if_neg hall]
    rfl

/-- Splitting and joining undo each other, for every split whose parameters are taken.  A value is
split into a token and just the extra bits that the token announces, and joined from them; a token is
refused only if its value would not have 32 bits, and otherwise is what that value splits into, with
those of the bits behind it that belong to it.  None of this has a fault with numbers of 32 bits. -/
theorem split_join_inverse {exponent high low : Nat} {s : TokenSplit}
    (hs : ofParameters exponent high low = .ok s) :
    (∀ v < 2 ^ 32,
      (s.split v).extra.width = s.extraWidth (s.split v).token ∧
      (s.split v).extra.value < 2 ^ (s.split v).extra.width ∧
      s.join (s.split v).token (s.split v).extra.value = .ok v) ∧
    (∀ token < 2 ^ 32, ∀ bits < 2 ^ 32,
      (2 ^ exponent ≤ token ∧ 32 < 1 + high + s.extraWidth token + low ∧
          s.join token bits = .error (.invalidStream .valueTooWide)) ∨
        ∃ v < 2 ^ 32, s.join token bits = .ok v ∧
          s.split v = ⟨token, ⟨bits % 2 ^ s.extraWidth token, s.extraWidth token⟩⟩) ∧
    (∀ v < 2 ^ 32, split s v = .ok (s.split v) ∧ (s.split v).token < 2 ^ 32) ∧
    ∀ token < 2 ^ 32, extraWidth s token = .ok (s.extraWidth token) ∧
      ∀ bits < 2 ^ 32, join s token bits = embedExcept (s.join token bits) := by
  obtain ⟨rfl, rfl, rfl⟩ := TokenSplit.eq_of_ofParameters (ofParameters_eq_ok_iff.1 hs)
  refine ⟨fun v hv ↦ ?_, fun token _ bits _ ↦ ?_, fun v hv ↦ ⟨split_eq s hv, s.token_split_lt hv⟩,
    fun token htoken ↦ ⟨extraWidth_eq s htoken, fun bits _ ↦ join_eq s htoken bits⟩⟩
  · obtain ⟨hwidth, hvalue⟩ := s.extra_split v
    exact ⟨hwidth, hvalue, s.join_split hv⟩
  · refine (s.join_cases token bits).imp id fun ⟨v, hjoin⟩ ↦ ?_
    have hmod := hjoin
    rw [← s.join_mod] at hmod
    obtain ⟨hlt, hsplit⟩ := s.split_of_join (Nat.mod_lt bits (Nat.two_pow_pos _)) hmod
    exact ⟨v, hlt, hjoin, hsplit⟩

/-- With bits carried at both ends: the largest value, a token with more bits behind it than belong to
it, and the first token whose value would have 33 bits. -/
theorem split_join_inverse_both : ∃ s, ofParameters 4 1 2 = .ok s ∧ 2 ^ 32 - 1 < 2 ^ 32 ∧
    s.join (s.split (2 ^ 32 - 1)).token (s.split (2 ^ 32 - 1)).extra.value = .ok (2 ^ 32 - 1) ∧
    29 < 2 ^ 32 ∧ 255 < 2 ^ 32 ∧
    (∃ v < 2 ^ 32, s.join 29 255 = .ok v ∧ s.split v = ⟨29, ⟨255 % 2 ^ s.extraWidth 29, 2⟩⟩) ∧
    240 < 2 ^ 32 ∧ s.join 240 0 = .error (.invalidStream .valueTooWide) ∧
    split s (2 ^ 32 - 1) = .ok (s.split (2 ^ 32 - 1)) := by
  have hs : ofParameters 4 1 2 = .ok ⟨4, 1, 2, by decide, by decide⟩ := rfl
  obtain ⟨hvalues, htokens, hsplit, -⟩ := split_join_inverse hs
  have hwide := (htokens 240 (by decide) 0 (by decide)).resolve_right
    fun ⟨v, _, hjoin, _⟩ ↦ nomatch hjoin
  exact ⟨_, hs, by decide, (hvalues _ (by decide)).2.2, by decide, by decide,
    (htokens 29 (by decide) 255 (by decide)).resolve_left fun h ↦ absurd h.2.1 (by decide),
    by decide, hwide.2.2,
    (hsplit _ (by decide)).1⟩

end Checked

end EntropyCoding
