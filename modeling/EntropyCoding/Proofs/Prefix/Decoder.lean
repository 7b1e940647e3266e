import EntropyCoding.Ans.Table
import EntropyCoding.Proofs.Bits.Reader
import EntropyCoding.Proofs.Prefix.SymbolOrder

/-!
# Decoding a codeword

A prefix code is `Accepted` if it is the one built from its own depths, and `Valid` if it is not too
large either; this is so for every code that a reader accepts.  If the symbols with a codeword can be
stored, as those of a valid code can, a decoder of an accepted code takes the codeword of each symbol
and gives the symbol, `PrefixCode.Accepted.takes_readSymbol`, and whatever it reads without an error
is the codeword of the symbol it gives, `PrefixCode.Accepted.exists_codeword_of_readSymbol`.

A decoder that has read `depth - 1` bits knows that the number they make is not below the first
codeword of that depth: this is what carries both directions along the codeword.
-/

namespace EntropyCoding

namespace PrefixCode

/-! ## Valid codes -/

/-- The code is the one built from its own depths. -/
def Accepted (c : PrefixCode) : Prop :=
  ofDepths c.depths.toList = .ok c

/-- The code is the one built from its own depths, and not too large. -/
structure Valid (c : PrefixCode) : Prop where
  /-- The code is the one built from its own depths. -/
  ofDepths_eq : ofDepths c.depths.toList = .ok c
  /-- The alphabet is not too large. -/
  alphabetSize_le : c.alphabetSize ≤ maxAlphabet

/-- What building a code checks, and what the code is. -/
theorem ofDepths_eq_ok_iff {depths : List Nat} {c : PrefixCode} :
    ofDepths depths = .ok c ↔
      depths ≠ [] ∧ (∀ d ∈ depths, d ≤ maxDepth) ∧
        ((∃ d ∈ depths, 0 < d) → kraftSum depths = codeSpace) ∧ c = canonical depths := by
  have hdeep : depths.any (maxDepth < ·) = true ↔ ¬ ∀ d ∈ depths, d ≤ maxDepth := by
    simp
  have hsum : (depths.any (0 < ·) && kraftSum depths != codeSpace) = true ↔
      ¬ ((∃ d ∈ depths, 0 < d) → kraftSum depths = codeSpace) := by
    rw [Bool.and_eq_true, bne_iff_ne, List.any_eq_true, Decidable.not_imp_iff_and_not]
    simp
  have hempty : depths.isEmpty = true ↔ ¬ depths ≠ [] := by
    simp
  unfold ofDepths
  constructor
  · intro h
    split at h
    · cases h
    · next hne =>
      split at h
      · cases h
      · next hd =>
        split at h
        · cases h
        · next hk =>
          refine ⟨?_, ?_, ?_, (Except.ok.inj h).symm⟩
          · exact Decidable.byContradiction fun hn ↦ hne (hempty.2 hn)
          · exact Decidable.byContradiction fun hn ↦ hd (hdeep.2 hn)
          · exact Decidable.byContradiction fun hn ↦ hk (hsum.2 hn)
  · rintro ⟨hne, hd, hk, rfl⟩
    rw [if_neg (fun h ↦ hempty.1 h hne), if_neg (fun h ↦ hdeep.1 h hd),
      if_neg (fun h ↦ hsum.1 h hk)]

theorem accepted_of_ofDepths {depths : List Nat} {c : PrefixCode} (h : ofDepths depths = .ok c) :
    c.Accepted := by
  obtain ⟨-, -, -, rfl⟩ := ofDepths_eq_ok_iff.1 h
  exact h

theorem valid_of_ofDepths {depths : List Nat} {c : PrefixCode} (h : ofDepths depths = .ok c)
    (hlen : depths.length ≤ maxAlphabet) : c.Valid := by
  obtain ⟨-, -, -, rfl⟩ := ofDepths_eq_ok_iff.1 h
  exact ⟨h, hlen⟩

theorem getD_depths (c : PrefixCode) (symbol : Nat) :
    c.depths.toList.getD symbol 0 = c.depth symbol := by
  rw [depth, List.getD_eq_getElem?_getD, Array.getD_eq_getD_getElem?, Array.getElem?_toList]

theorem coded_eq_zero_iff (c : PrefixCode) : c.coded = 0 ↔ ∀ d ∈ c.depths.toList, d = 0 := by
  rw [coded, ← Array.countP_toList, List.countP_eq_zero]
  simp

namespace Accepted

variable {c : PrefixCode} (hc : c.Accepted)
include hc

theorem eq_canonical : c = canonical c.depths.toList :=
  (ofDepths_eq_ok_iff.1 hc).2.2.2

theorem alphabetSize_pos : 0 < c.alphabetSize :=
  List.length_pos_iff.2 (ofDepths_eq_ok_iff.1 hc).1

theorem depth_le (symbol : Nat) : c.depth symbol ≤ maxDepth := by
  have h := (ofDepths_eq_ok_iff.1 hc).2.1
  rw [← getD_depths, List.getD_eq_getElem?_getD]
  cases hget : c.depths.toList[symbol]? with
  | none => exact Nat.zero_le _
  | some d => exact h d (List.mem_of_getElem? hget)

theorem kraftSum_le : kraftSum c.depths.toList ≤ codeSpace := by
  by_cases h : ∃ d ∈ c.depths.toList, 0 < d
  · exact Nat.le_of_eq ((ofDepths_eq_ok_iff.1 hc).2.2.1 h)
  · have hnone : c.depths.toList.filter isCodeDepth = [] := by
      refine List.filter_eq_nil_iff.2 fun d hd hcode ↦ h ⟨d, hd, (isCodeDepth_iff.1 hcode).1⟩
    rw [kraftSum, hnone]
    exact Nat.zero_le _

theorem isCodeDepth {symbol : Nat} (h : 0 < c.depth symbol) :
    isCodeDepth (c.depths.toList.getD symbol 0) := by
  rw [getD_depths]
  exact isCodeDepth_of_pos h (hc.depth_le symbol)

theorem getD_codes {symbol : Nat} (h : 0 < c.depth symbol) :
    c.codes.getD symbol 0 =
      reverseBits (c.depth symbol) (codeNumber c.depths.toList symbol) := by
  have hcodes : c.codes = canonicalCodes c.depths.toList := congrArg codes hc.eq_canonical
  rw [hcodes, getD_canonicalCodes (hc.isCodeDepth h), getD_depths]

end Accepted

/-- A symbol with a depth makes a code not degenerate. -/
theorem single?_of_depth_pos {c : PrefixCode} {symbol : Nat} (h : 0 < c.depth symbol) :
    c.single? = none := by
  apply if_neg
  intro hsingle
  have hzero := (coded_eq_zero_iff c).1 hsingle.1
  rw [← getD_depths, List.getD_eq_getElem?_getD] at h
  cases hget : c.depths.toList[symbol]? with
  | none => rw [hget] at h; cases h
  | some d =>
    rw [hget, Option.getD_some, hzero d (List.mem_of_getElem? hget)] at h
    cases h

/-- A symbol has a codeword if it has a depth, or if the code is degenerate and stands for it. -/
theorem codeword_eq_ok_iff {c : PrefixCode} {symbol : Nat} {f : Field} :
    c.codeword symbol = .ok f ↔
      (0 < c.depth symbol ∧ f = ⟨c.codes.getD symbol 0, c.depth symbol⟩) ∨
        (c.single? = some symbol ∧ f = ⟨0, 0⟩) := by
  unfold codeword
  constructor
  · intro h
    split at h
    · next hd => exact .inl ⟨hd, (Except.ok.inj h).symm⟩
    · split at h
      · next hs => exact .inr ⟨hs, (Except.ok.inj h).symm⟩
      · cases h
  · rintro (⟨hd, rfl⟩ | ⟨hs, rfl⟩)
    · rw [if_pos hd]
    · have hd : ¬ 0 < c.depth symbol := by
        intro hd
        rw [single?_of_depth_pos hd] at hs
        cases hs
      rw [if_neg hd, if_pos hs]

end PrefixCode

/-! ## Along a codeword -/

namespace PrefixDecoder

open PrefixCode BitRead BitReader

theorem reverse_lowBits_succ (m k : Nat) :
    (lowBits (m + 1) k).reverse = lowBits 1 (k / 2 ^ m % 2) ++ (lowBits m k).reverse := by
  have hmod : lowBits 1 (k / 2 ^ m % 2) = lowBits 1 (k / 2 ^ m) := lowBits_mod 1 (k / 2 ^ m)
  rw [lowBits_add, List.reverse_append, hmod]
  rfl

theorem two_mul_div_add_mod (m k : Nat) :
    2 * (k / 2 ^ (m + 1)) + k / 2 ^ m % 2 = k / 2 ^ m := by
  rw [Nat.pow_succ, ← Nat.div_div_eq_div_mul]
  omega

variable {depths : List Nat}

theorem getD_counts (depth : Nat) :
    (ofCode (canonical depths)).counts.getD depth 0 = codeCount depths depth :=
  getD_depthCounts depths depth

variable (hids : StoresAll depths)
include hids

/-- A decoder that stands `m + 1` bits before the end of a codeword takes them. -/
theorem takes_walk {symbol j m n depth : Nat} (hn : n + depth = maxDepth + 1)
    (hd : isCodeDepth (depth + m)) (hj : j < depths.count (depth + m))
    (hs : (symbolsOf depths (depth + m))[j]? = some symbol) :
    Takes ((ofCode (canonical depths)).walk n depth
        (2 * ((firstCode (codeCount depths) (depth + m) + j) / 2 ^ (m + 1)))
        (firstCode (codeCount depths) depth) (codesBelow (codeCount depths) depth))
      (lowBits (m + 1) (firstCode (codeCount depths) (depth + m) + j)).reverse symbol := by
  have hle := (isCodeDepth_iff.1 hd).2
  induction m generalizing n depth with
  | zero =>
    obtain ⟨n, rfl⟩ : ∃ k, n = k + 1 := ⟨n - 1, by omega⟩
    have hcount : codeCount depths depth = depths.count depth := if_pos hd
    have htop := two_mul_div_add_mod 0 (firstCode (codeCount depths) depth + j)
    rw [Nat.pow_zero, Nat.div_one] at htop
    rw [walk, reverse_lowBits_succ]
    refine (takes_read_bit _).bind ?_
    rw [Nat.add_zero] at hd hj hs ⊢
    rw [Nat.pow_zero, Nat.div_one, htop, getD_counts, if_pos (by omega), Nat.add_sub_cancel_left,
      getElem?_symbols hids hd hj, hs]
    exact takes_pure symbol
  | succ m ih =>
    obtain ⟨n, rfl⟩ : ∃ k, n = k + 1 := ⟨n - 1, by omega⟩
    have hdepth : depth + (m + 1) = depth + 1 + m := by omega
    rw [hdepth] at hd hj hs hle ⊢
    -- the number read so far is beyond the codewords of this depth
    have hfirst := firstCode_add_mul_le (codeCount depths) (a := depth) (b := depth + 1 + m)
      (by omega)
    rw [show depth + 1 + m - depth = m + 1 by omega] at hfirst
    have hbeyond : firstCode (codeCount depths) depth + codeCount depths depth ≤
        (firstCode (codeCount depths) (depth + 1 + m) + j) / 2 ^ (m + 1) := by
      rw [Nat.le_div_iff_mul_le (Nat.two_pow_pos _)]
      omega
    rw [walk, reverse_lowBits_succ]
    refine (takes_read_bit _).bind ?_
    rw [two_mul_div_add_mod, getD_counts, if_neg (by omega)]
    exact ih (by omega) hd hj hs hle

/-- A decoder that reads one bit more either finds a symbol of this depth or goes on. -/
theorem exists_bit_of_walk {symbol n depth code : Nat} (hd : isCodeDepth depth)
    (hle : firstCode (codeCount depths) depth ≤ code) {r r' : BitReader} (hr : r.pos ≤ r.length)
    (h : (ofCode (canonical depths)).walk (n + 1) depth code (firstCode (codeCount depths) depth)
      (codesBelow (codeCount depths) depth) r = .ok symbol r') :
    ∃ bit r₁, bit < 2 ∧ r.Passes (lowBits 1 bit) r₁ ∧
      (code + bit < firstCode (codeCount depths) depth + depths.count depth ∧ r' = r₁ ∧
          (symbolsOf depths depth)[code + bit - firstCode (codeCount depths) depth]? = some symbol ∨
        firstCode (codeCount depths) depth + depths.count depth ≤ code + bit ∧
          (ofCode (canonical depths)).walk n (depth + 1) (2 * (code + bit))
            (firstCode (codeCount depths) (depth + 1)) (codesBelow (codeCount depths) (depth + 1))
            r₁ = .ok symbol r') := by
  have hcount : codeCount depths depth = depths.count depth := if_pos hd
  obtain ⟨bit, r₁, hread, h⟩ := bind_eq_ok_iff.1 h
  obtain ⟨hbit, hpass⟩ := (read_eq_ok_iff hr).1 hread
  refine ⟨bit, r₁, hbit, hpass, ?_⟩
  rw [getD_counts] at h
  split at h
  · next hlt =>
    rw [hcount] at hlt
    rw [getElem?_symbols hids hd (by omega)] at h
    cases hget : (symbolsOf depths depth)[code + bit - firstCode (codeCount depths) depth]? with
    | none =>
      rw [hget] at h
      cases h
    | some found =>
      rw [hget] at h
      obtain ⟨rfl, rfl⟩ := pure_eq_ok_iff.1 h
      exact .inl ⟨hlt, rfl, rfl⟩
  · next hge =>
    rw [hcount] at hge
    exact .inr ⟨Nat.not_lt.1 hge, h⟩

/-- What a decoder reads is the rest of a codeword of the symbol that it gives. -/
theorem exists_codeword_of_walk {symbol n depth acc : Nat} (hn : n + depth = maxDepth + 1)
    (hdepth : 1 ≤ depth) (hacc : firstCode (codeCount depths) depth ≤ 2 * acc) {r r' : BitReader}
    (hr : r.pos ≤ r.length)
    (h : (ofCode (canonical depths)).walk n depth (2 * acc) (firstCode (codeCount depths) depth)
      (codesBelow (codeCount depths) depth) r = .ok symbol r') :
    ∃ m j, isCodeDepth (depth + m) ∧ j < depths.count (depth + m) ∧
      (symbolsOf depths (depth + m))[j]? = some symbol ∧
      (firstCode (codeCount depths) (depth + m) + j) / 2 ^ (m + 1) = acc ∧
      r.Passes (lowBits (m + 1) (firstCode (codeCount depths) (depth + m) + j)).reverse r' := by
  induction n generalizing depth acc r with
  | zero => cases h
  | succ n ih =>
    have hd : isCodeDepth depth := isCodeDepth_of_pos hdepth (by omega)
    obtain ⟨bit, r₁, hbit, hpass, hstep⟩ := exists_bit_of_walk hids hd hacc hr h
    have hmod : (2 * acc + bit) % 2 = bit := by omega
    rcases hstep with ⟨hlt, rfl, hget⟩ | ⟨hge, h⟩
    · have hcode : firstCode (codeCount depths) (depth + 0) +
          (2 * acc + bit - firstCode (codeCount depths) depth) = 2 * acc + bit :=
        Nat.add_sub_cancel' (Nat.le_trans hacc (Nat.le_add_right _ _))
      refine ⟨0, _, hd, Nat.sub_lt_left_of_lt_add (by omega) hlt, hget, ?_, ?_⟩
      · rw [hcode]
        omega
      · rw [hcode, reverse_lowBits_succ, Nat.pow_zero, Nat.div_one, hmod]
        exact hpass
    · have hfirst : firstCode (codeCount depths) (depth + 1) ≤ 2 * (2 * acc + bit) := by
        rw [firstCode, show codeCount depths depth = depths.count depth from if_pos hd]
        omega
      obtain ⟨m, j, hd, hj, hget, hdiv, hpass'⟩ :=
        ih (by omega) (Nat.le_add_left 1 depth) hfirst hpass.pos_le h
      rw [show depth + 1 + m = depth + (m + 1) by omega] at hd hj hget hdiv hpass'
      refine ⟨m + 1, j, hd, hj, hget, ?_, ?_⟩
      · rw [Nat.pow_succ, ← Nat.div_div_eq_div_mul, hdiv]
        omega
      · rw [reverse_lowBits_succ, hdiv, hmod]
        exact hpass.trans hpass'

end PrefixDecoder

/-! ## Symbols -/

namespace PrefixCode

open BitRead PrefixDecoder

theorem Valid.length_depths_le {c : PrefixCode} (hc : c.Valid) : c.depths.toList.length ≤ 2 ^ 16 :=
  hc.alphabetSize_le

/-- A valid code is accepted. -/
theorem Valid.accepted {c : PrefixCode} (hc : c.Valid) : c.Accepted :=
  hc.ofDepths_eq

namespace Accepted

variable {c : PrefixCode} (hc : c.Accepted)
include hc

theorem ofCode_eq : ofCode c = ofCode (canonical c.depths.toList) :=
  congrArg ofCode hc.eq_canonical

theorem bits_codeword {symbol : Nat} (h : 0 < c.depth symbol) :
    (Field.mk (c.codes.getD symbol 0) (c.depth symbol)).bits =
      (lowBits (c.depth symbol) (codeNumber c.depths.toList symbol)).reverse := by
  rw [Field.bits, hc.getD_codes h, lowBits_reverseBits]

theorem width_codeword_le {symbol : Nat} {f : Field} (h : c.codeword symbol = .ok f) :
    f.width ≤ maxDepth := by
  rcases codeword_eq_ok_iff.1 h with ⟨-, rfl⟩ | ⟨-, rfl⟩
  · exact hc.depth_le symbol
  · exact Nat.zero_le _

/-- A decoder takes the codeword of a symbol. -/
theorem takes_readSymbol (hids : StoresAll c.depths.toList) {symbol : Nat} {f : Field}
    (h : c.codeword symbol = .ok f) : Takes (ofCode c).readSymbol f.bits symbol := by
  rcases codeword_eq_ok_iff.1 h with ⟨hd, rfl⟩ | ⟨hs, rfl⟩
  · have hcode := hc.isCodeDepth hd
    have hrank := count_take_lt (lt_length_of_isCodeDepth hcode)
    have hget := getElem?_symbolsOf (lt_length_of_isCodeDepth hcode)
    have hnumber := codeNumber_lt hcode hc.kraftSum_le
    rw [getD_depths] at hcode hrank hget hnumber
    obtain ⟨m, hm⟩ : ∃ m, c.depth symbol = 1 + m := ⟨c.depth symbol - 1, by omega⟩
    have htakes := takes_walk hids (rfl : maxDepth + 1 = maxDepth + 1) (hm ▸ hcode)
      (hm ▸ hrank) (hm ▸ hget)
    have hnum : firstCode (codeCount c.depths.toList) (1 + m) +
        (c.depths.toList.take symbol).count (1 + m) = codeNumber c.depths.toList symbol := by
      rw [codeNumber, getD_depths, hm]
    rw [← hm] at htakes hnum
    rw [bits_codeword hc hd, readSymbol, show (ofCode c).single? = c.single? from rfl,
      single?_of_depth_pos hd, ofCode_eq hc]
    rw [hnum, show m + 1 = c.depth symbol by omega, Nat.div_eq_of_lt hnumber] at htakes
    exact htakes
  · rw [readSymbol, show (ofCode c).single? = c.single? from rfl, hs]
    exact takes_pure symbol

/-- What a decoder reads is the codeword of the symbol that it gives. -/
theorem exists_codeword_of_readSymbol (hids : StoresAll c.depths.toList) {symbol : Nat}
    {r r' : BitReader} (hr : r.pos ≤ r.length) (h : (ofCode c).readSymbol r = .ok symbol r') :
    ∃ f, c.codeword symbol = .ok f ∧ r.Passes f.bits r' := by
  rw [readSymbol, show (ofCode c).single? = c.single? from rfl] at h
  cases hs : c.single? with
  | some single =>
    rw [hs] at h
    obtain ⟨rfl, rfl⟩ := pure_eq_ok_iff.1 h
    exact ⟨⟨0, 0⟩, codeword_eq_ok_iff.2 (.inr ⟨hs, rfl⟩), .refl hr⟩
  | none =>
    rw [hs, ofCode_eq hc] at h
    obtain ⟨m, j, hd, hj, hget, -, hpass⟩ := exists_codeword_of_walk hids
      (rfl : maxDepth + 1 = maxDepth + 1) (Nat.le_refl 1) (show 0 ≤ 2 * 0 from Nat.le_refl 0) hr h
    obtain ⟨symbol', -, hdepth, hrank, hget'⟩ := exists_symbol_of_lt hj
    obtain rfl : symbol = symbol' := Option.some_inj.1 (hget.symm.trans hget')
    have hpos : 0 < c.depth symbol := by
      rw [← getD_depths, hdepth]
      omega
    refine ⟨_, codeword_eq_ok_iff.2 (.inl ⟨hpos, rfl⟩), ?_⟩
    rw [bits_codeword hc hpos, codeNumber, ← getD_depths, hdepth, hrank, Nat.add_comm 1 m]
    rwa [Nat.add_comm 1 m] at hpass

end Accepted

namespace Valid

variable {c : PrefixCode} (hc : c.Valid)
include hc

/-- A decoder of a valid code takes the codeword of a symbol. -/
theorem takes_readSymbol {symbol : Nat} {f : Field} (h : c.codeword symbol = .ok f) :
    Takes (ofCode c).readSymbol f.bits symbol :=
  hc.accepted.takes_readSymbol (storesAll_of_length_le hc.length_depths_le) h

/-- What a decoder of a valid code reads is the codeword of the symbol that it gives. -/
theorem exists_codeword_of_readSymbol {symbol : Nat} {r r' : BitReader} (hr : r.pos ≤ r.length)
    (h : (ofCode c).readSymbol r = .ok symbol r') :
    ∃ f, c.codeword symbol = .ok f ∧ r.Passes f.bits r' :=
  hc.accepted.exists_codeword_of_readSymbol (storesAll_of_length_le hc.length_depths_le) hr h

end Valid

end PrefixCode

end EntropyCoding
