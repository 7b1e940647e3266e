import EntropyCoding.Proofs.Checked.Code
import EntropyCoding.Proofs.Prefix.Extension
import Mathlib.Algebra.Order.Field.Rat
import Mathlib.Data.Prod.Lex

/-!
# The order of canonical codewords

Codewords are numbers of as many bits as their depths, and symbols follow each other in the order of
their depths, and of their places where depths are equal.  The codeword of a symbol that comes later
begins where the room of an earlier one has ended, `codeNumber_succ_mul_le`: at one depth codewords are
consecutive, and the first of a larger depth lies beyond all shorter ones.

A codeword that is a prefix of another one has that one in its room, `div_eq_of_isPrefix`.  So no
codeword is a prefix of another, and as binary fractions codewords are in the order of their symbols,
`Checked.canonicalCodes_exact`.
-/

namespace EntropyCoding

/-! ## Numbers and strings -/

theorem reverseBits_reverseBits {n code : Nat} (h : code < 2 ^ n) :
    reverseBits n (reverseBits n code) = code := by
  rw [reverseBits, lowBits_reverseBits, List.reverse_reverse, ofBits_lowBits, Nat.mod_eq_of_lt h]

theorem reverseBits_lt (n code : Nat) : reverseBits n code < 2 ^ n := by
  have h := ofBits_lt (lowBits n code).reverse
  rwa [List.length_reverse, length_lowBits] at h

/-- A string that is a prefix of another one has the upper bits of its number. -/
theorem div_eq_of_isPrefix {m n a b : Nat} (ha : a < 2 ^ m) (hb : b < 2 ^ n)
    (h : (lowBits m a).reverse <+: (lowBits n b).reverse) : m ≤ n ∧ b / 2 ^ (n - m) = a := by
  have hle : m ≤ n := by simpa using h.length_le
  obtain ⟨k, rfl⟩ := Nat.exists_eq_add_of_le' hle
  rw [List.reverse_prefix, lowBits_add] at h
  have hsame : lowBits m a = lowBits m (b / 2 ^ k) := by
    refine (List.suffix_of_suffix_length_le h (List.suffix_append _ _) ?_).eq_of_length ?_
    · simp
    · simp
  have hlt : b / 2 ^ k < 2 ^ m := by
    rw [Nat.pow_add] at hb
    exact Nat.div_lt_of_lt_mul hb
  refine ⟨hle, ?_⟩
  rw [Nat.add_sub_cancel, ← Nat.mod_eq_of_lt hlt, ← Nat.mod_eq_of_lt ha, ← ofBits_lowBits, ← hsame,
    ofBits_lowBits]

/-! ## Codewords -/

section

variable (depths : List Nat) (symbol : Nat)

/-- The codeword of a symbol as a number, from its highest bit on: what is stored, reversed. -/
def codewordNumber : Nat :=
  reverseBits (depths.getD symbol 0) ((canonicalCodes depths).getD symbol 0)

def codewordString : List Bool :=
  (lowBits (depths.getD symbol 0) (codewordNumber depths symbol)).reverse

def codewordFraction : ℚ :=
  codewordNumber depths symbol / 2 ^ depths.getD symbol 0

end

variable {depths : List Nat} {s t : Nat}

/-- The codeword of a symbol is the number that it was assigned. -/
theorem codewordNumber_eq (hk : kraftSum depths ≤ codeSpace) (h : isCodeDepth (depths.getD s 0)) :
    codewordNumber depths s = codeNumber depths s := by
  rw [codewordNumber, getD_canonicalCodes h, reverseBits_reverseBits (codeNumber_lt h hk)]

/-! ## Order -/

theorem count_take_lt_of_lt {l : List Nat} {i j : Nat} (hj : j < l.length) (h : i < j) :
    (l.take i).count (l.getD i 0) < (l.take j).count (l.getD i 0) := by
  have hi : i < (l.take j).length := by
    rw [List.length_take]
    omega
  have hlt := count_take_lt hi
  rwa [List.take_take, Nat.min_eq_left (Nat.le_of_lt h), List.getD_eq_getElem _ _ hi,
    List.getElem_take, ← List.getD_eq_getElem _ 0 (Nat.lt_trans h hj)] at hlt

section

variable (hs : isCodeDepth (depths.getD s 0)) (ht : isCodeDepth (depths.getD t 0))
include hs ht

/-- The codeword of a later symbol lies beyond the room of an earlier one. -/
theorem codeNumber_succ_mul_le (h : toLex (depths.getD s 0, s) < toLex (depths.getD t 0, t)) :
    depths.getD s 0 ≤ depths.getD t 0 ∧
      (codeNumber depths s + 1) * 2 ^ (depths.getD t 0 - depths.getD s 0) ≤ codeNumber depths t := by
  rcases Prod.Lex.toLex_lt_toLex.1 h with hlt | ⟨heq, hlt⟩
  · refine ⟨Nat.le_of_lt hlt, ?_⟩
    calc (codeNumber depths s + 1) * 2 ^ (depths.getD t 0 - depths.getD s 0)
        ≤ (firstCode (codeCount depths) (depths.getD s 0) + codeCount depths (depths.getD s 0)) *
            2 ^ (depths.getD t 0 - depths.getD s 0) :=
          Nat.mul_le_mul_right _ (codeNumber_lt_firstCode_add hs)
      _ ≤ firstCode (codeCount depths) (depths.getD t 0) := firstCode_add_mul_le _ hlt
      _ ≤ codeNumber depths t := Nat.le_add_right _ _
  · dsimp only at heq hlt
    have hcount := count_take_lt_of_lt (lt_length_of_isCodeDepth ht) hlt
    refine ⟨Nat.le_of_eq heq, ?_⟩
    rw [heq, Nat.sub_self, Nat.pow_zero, Nat.mul_one, codeNumber, codeNumber, ← heq]
    omega

variable (hk : kraftSum depths ≤ codeSpace)
include hk

/-- No codeword is a prefix of another one. -/
theorem not_isPrefix_codewordString (hne : s ≠ t) :
    ¬ codewordString depths s <+: codewordString depths t := by
  intro h
  rw [codewordString, codewordString, codewordNumber_eq hk hs, codewordNumber_eq hk ht] at h
  obtain ⟨hle, hdiv⟩ := div_eq_of_isPrefix (codeNumber_lt hs hk) (codeNumber_lt ht hk) h
  have hkeys : toLex (depths.getD s 0, s) ≠ toLex (depths.getD t 0, t) := by
    intro heq
    exact hne (Prod.mk.inj (toLex_inj.1 heq)).2
  rcases lt_or_gt_of_ne hkeys with hlt | hgt
  · obtain ⟨-, hroom⟩ := codeNumber_succ_mul_le hs ht hlt
    have := (Nat.le_div_iff_mul_le (Nat.two_pow_pos _)).2 hroom
    omega
  · obtain ⟨hge, hroom⟩ := codeNumber_succ_mul_le ht hs hgt
    -- both have the same depth, and so the same number
    rw [Nat.le_antisymm hle hge, Nat.sub_self, Nat.pow_zero] at hdiv hroom
    omega

/-- As binary fractions codewords are in the order of their symbols. -/
theorem codewordFraction_lt (h : toLex (depths.getD s 0, s) < toLex (depths.getD t 0, t)) :
    codewordFraction depths s < codewordFraction depths t := by
  obtain ⟨hle, hroom⟩ := codeNumber_succ_mul_le hs ht h
  have hpow : 2 ^ depths.getD t 0 = 2 ^ (depths.getD t 0 - depths.getD s 0) * 2 ^ depths.getD s 0 := by
    rw [← Nat.pow_add, Nat.sub_add_cancel hle]
  have hlt : codeNumber depths s * 2 ^ depths.getD t 0 < codeNumber depths t * 2 ^ depths.getD s 0 := by
    rw [hpow, ← Nat.mul_assoc]
    refine Nat.mul_lt_mul_of_pos_right (Nat.lt_of_lt_of_le ?_ hroom) (Nat.two_pow_pos _)
    exact Nat.mul_lt_mul_of_pos_right (Nat.lt_succ_self _) (Nat.two_pow_pos _)
  have hpos (n : Nat) : (0 : ℚ) < 2 ^ n := pow_pos two_pos n
  rw [codewordFraction, codewordFraction, codewordNumber_eq hk hs, codewordNumber_eq hk ht,
    div_lt_div_iff₀ (hpos _) (hpos _)]
  exact_mod_cast hlt

end

/-! ## Assigned codewords -/

/-- A symbol without a codeword has zero in its place. -/
theorem getElem?_canonicalCodes_of_zero (h : depths[s]? = some 0) :
    (canonicalCodes depths)[s]? = some 0 := by
  have hs := (List.getElem?_eq_some_iff.1 h).1
  have hd : ¬ isCodeDepth (depths.getD s 0) := by
    rw [List.getD_eq_getElem?_getD, h]
    decide
  rw [← Array.getElem?_toList, toList_canonicalCodes, List.getElem?_map, List.getElem?_range hs,
    Option.map_some, if_neg hd]

namespace Checked

/-- The bit-reversed codewords of symbols with the given depths, zero for symbols without. -/
def canonicalCodes (depths : List Nat) : Except Stop (Array Nat) := do
  let next ← firstCodes depths
  let (_, codes) ← assignCodes next depths
  .ok codes

/-- Codewords are assigned without a fault, one for each symbol.  Those of coded symbols fit their
depths, so that no bit is lost when they are reversed; none is a prefix of another, and as binary
fractions they are in the order of depths and, where these are equal, of symbols.  A symbol without a
codeword has zero in its place. -/
theorem canonicalCodes_exact {depths : List Nat} (hle : ∀ d ∈ depths, d ≤ maxDepth)
    (hk : EntropyCoding.kraftSum depths ≤ codeSpace) :
    (∃ codes, canonicalCodes depths = .ok codes ∧ codes = EntropyCoding.canonicalCodes depths ∧
      codes.size = depths.length) ∧
    (∀ s, 0 < depths.getD s 0 →
      (EntropyCoding.canonicalCodes depths).getD s 0 < 2 ^ depths.getD s 0 ∧
      codewordNumber depths s = codeNumber depths s ∧
      codeNumber depths s < 2 ^ depths.getD s 0) ∧
    (∀ s t, 0 < depths.getD s 0 → 0 < depths.getD t 0 → s ≠ t →
      ¬ codewordString depths s <+: codewordString depths t) ∧
    (∀ s t, 0 < depths.getD s 0 → 0 < depths.getD t 0 →
      toLex (depths.getD s 0, s) < toLex (depths.getD t 0, t) →
      codewordFraction depths s < codewordFraction depths t) ∧
    (∀ s : Nat, depths[s]? = some 0 → (EntropyCoding.canonicalCodes depths)[s]? = some 0) := by
  have hcode {s : Nat} (h : 0 < depths.getD s 0) : isCodeDepth (depths.getD s 0) := by
    refine isCodeDepth_of_pos h ?_
    rw [List.getD_eq_getElem _ _ (lt_length_of_pos h)]
    exact hle _ (List.getElem_mem _)
  refine ⟨⟨_, ?_, rfl, PrefixCode.size_canonicalCodes depths⟩, fun s hs ↦
      ⟨?_, codewordNumber_eq hk (hcode hs), codeNumber_lt (hcode hs) hk⟩,
    fun s t hs ht hne ↦ not_isPrefix_codewordString (hcode hs) (hcode ht) hk hne,
    fun s t hs ht h ↦ codewordFraction_lt (hcode hs) (hcode ht) hk h,
    fun s h ↦ getElem?_canonicalCodes_of_zero h⟩
  · obtain ⟨next, hassign⟩ := assignCodes_eq hk
    rw [canonicalCodes, bind_of_eq_ok (firstCodes_eq hk hle), bind_of_eq_ok hassign]
  · rw [getD_canonicalCodes (hcode hs)]
    exact reverseBits_lt _ _

/-- Depths of an incomplete code, a longer codeword before a shorter one, and a gap. -/
theorem canonicalCodes_exact_gap : (∀ d ∈ [3, 0, 1, 3], d ≤ maxDepth) ∧
    EntropyCoding.kraftSum [3, 0, 1, 3] ≤ codeSpace ∧
    ¬ codewordString [3, 0, 1, 3] 2 <+: codewordString [3, 0, 1, 3] 0 ∧
    codewordFraction [3, 0, 1, 3] 0 < codewordFraction [3, 0, 1, 3] 3 ∧
    codewordString [3, 0, 1, 3] 3 = [true, false, true] := by
  have hle : ∀ d ∈ [3, 0, 1, 3], d ≤ maxDepth := by decide
  have hk : EntropyCoding.kraftSum [3, 0, 1, 3] ≤ codeSpace := by decide
  obtain ⟨-, hfits, hfree, horder, -⟩ := canonicalCodes_exact hle hk
  refine ⟨hle, hk, hfree 2 0 (by decide) (by decide) (by decide),
    horder 0 3 (by decide) (by decide) ?_, ?_⟩
  · exact Prod.Lex.toLex_lt_toLex.2 (.inr ⟨rfl, by decide⟩)
  · rw [codewordString, (hfits 3 (by decide)).2.1]
    decide

end Checked

end EntropyCoding
