import EntropyCoding.Proofs.Prefix.Depths
import Mathlib.Algebra.BigOperators.Group.Finset.Basic
import Mathlib.Algebra.Order.Ring.Rat
import Mathlib.Tactic.Ring

/-!
# Complete codes within a limit

The codewords of a tree take all of the code space: their parts `2 ^ -depth` add up to one,
`CodeTree.sum_half_pow_depths`.  A sum over the leaves of a tree is one over the symbols in use,
`sum_usedSet_eq`, so the depths found for counts are those of a complete code on these symbols,
`exists_isLimited`.
-/

namespace EntropyCoding

/-- The symbols that occur. -/
def usedSet (counts : List Nat) : Finset Nat :=
  (Finset.range counts.length).filter fun s ↦ 0 < counts.getD s 0

theorem mem_usedSet {counts : List Nat} {symbol : Nat} :
    symbol ∈ usedSet counts ↔ 0 < counts.getD symbol 0 := by
  rw [usedSet, Finset.mem_filter, Finset.mem_range, and_iff_right_iff_imp]
  exact lt_length_of_pos

theorem card_usedSet (counts : List Nat) : (usedSet counts).card = (usedSymbols counts).length := by
  rw [usedSymbols_eq, List.length_map]
  rfl

/-- A sum over the symbols used is one over their list. -/
theorem sum_usedSet {M : Type} [AddCommMonoid M] (counts : List Nat) (g : Nat → M) :
    ∑ s ∈ usedSet counts, g s = (((usedSymbols counts).map Prod.fst).map g).sum := by
  rw [usedSymbols_eq, List.map_map, List.map_map]
  rfl

/-! ## The code space of a tree -/

/-- The parts of the code space that the leaves of a tree take. -/
theorem CodeTree.sum_half_pow_depths (t : CodeTree) (d : Nat) :
    ((t.depths d).map fun p ↦ (1 / 2 : ℚ) ^ p.2).sum = (1 / 2) ^ d := by
  induction t generalizing d with
  | leaf symbol weight => exact add_zero _
  | node weight left right ihl ihr =>
    rw [depths, List.map_append, List.sum_append, ihl, ihr]
    ring

section

variable {counts depths : List Nat} {limit : Nat} (h : limitedDepths counts limit = .ok depths)
  (hused : 2 ≤ (usedSet counts).card)
include h hused

/-- A sum over the symbols used is one over the depths found. -/
theorem sum_usedSet_depths {M : Type} [AddCommMonoid M] (g : Nat → Nat → M) :
    ∑ s ∈ usedSet counts, g s (depths.getD s 0) =
      ((depthsWithin (usedSymbols counts) limit).depths.map fun p ↦ g p.1 p.2).sum := by
  rw [card_usedSet] at hused
  obtain ⟨t, hfound, rfl, hsymbols, -⟩ := exists_tree_of_limitedDepths h hused
  rw [← CodeTree.map_fst_depths t 0] at hsymbols
  have hnodup : ((t.depths 0).map Prod.fst).Nodup :=
    hsymbols.nodup_iff.2 (nodup_map_fst_usedSymbols counts)
  have hlt : ∀ p ∈ t.depths 0, p.1 < counts.length := fun p hp ↦
    lt_length_of_pos (mem_map_fst_usedSymbols.1 (hsymbols.mem_iff.1 (List.mem_map_of_mem hp)))
  have hplace := (spreadDepths_spec hnodup hlt).2.1
  rw [sum_usedSet, hfound, ← (hsymbols.map _).sum_eq, List.map_map]
  congr 1
  refine List.map_congr_left fun p hp ↦ ?_
  rw [Function.comp_apply, List.getD_eq_getElem?_getD, hplace p hp]
  rfl

/-- The codewords found take all of the code space. -/
theorem sum_half_pow_depths : ∑ s ∈ usedSet counts, (1 / 2 : ℚ) ^ depths.getD s 0 = 1 := by
  rw [sum_usedSet_depths h hused fun _ d ↦ (1 / 2 : ℚ) ^ d]
  rw [card_usedSet] at hused
  obtain ⟨t, hfound, -⟩ := exists_tree_of_limitedDepths h hused
  rw [hfound, t.sum_half_pow_depths, pow_zero]

end

/-! ## Depths within a limit -/

/-- What the depths of codewords for counts are, none deeper than `limit`. -/
structure IsLimited (counts : List Nat) (limit : Nat) (depths : List Nat) : Prop where
  /-- Every symbol has a depth. -/
  length_eq : depths.length = counts.length
  /-- At most one symbol needs no codewords. -/
  eq_replicate : (usedSet counts).card ≤ 1 → depths = List.replicate counts.length 0
  /-- Otherwise exactly the symbols that occur have codewords. -/
  eq_zero_iff : 2 ≤ (usedSet counts).card → ∀ s, depths.getD s 0 = 0 ↔ counts.getD s 0 = 0
  /-- No codeword is too long. -/
  le_limit : ∀ d ∈ depths, d ≤ limit
  /-- The codewords take all of the code space. -/
  sum_eq_one : 2 ≤ (usedSet counts).card → ∑ s ∈ usedSet counts, (1 / 2 : ℚ) ^ depths.getD s 0 = 1

/-- Depths are found unless two symbols or more are used and there is no room for them. -/
theorem exists_isLimited {counts : List Nat} {limit : Nat}
    (h : ¬ (2 ≤ (usedSet counts).card ∧ codeCapacity limit < (usedSet counts).card)) :
    ∃ depths, limitedDepths counts limit = .ok depths ∧ IsLimited counts limit depths := by
  have hcard := card_usedSet counts
  rcases Nat.lt_or_ge (usedSet counts).card 2 with hfew | hused
  · refine ⟨List.replicate counts.length 0, ?_, List.length_replicate, fun _ ↦ rfl, ?_, ?_, ?_⟩
    · rw [limitedDepths, if_pos (by omega)]
    · exact fun hused ↦ absurd hused (Nat.not_le.2 hfew)
    · intro d hd
      rw [(List.mem_replicate.1 hd).2]
      exact Nat.zero_le limit
    · exact fun hused ↦ absurd hused (Nat.not_le.2 hfew)
  · obtain ⟨depths, hok⟩ : ∃ depths, limitedDepths counts limit = .ok depths := by
      rw [limitedDepths, if_neg (by omega), if_neg (by omega)]
      exact ⟨_, rfl⟩
    obtain ⟨hlength, hle, hpos, -⟩ := limitedDepths_spec hok (hcard ▸ hused)
    refine ⟨depths, hok, hlength, fun hfew ↦ ?_, fun _ s ↦ ?_, hle,
      fun _ ↦ sum_half_pow_depths hok hused⟩
    · exact absurd hused (Nat.not_le.2 (Nat.lt_succ_of_le hfew))
    · have := hpos s
      omega

/-- Two symbols or more are refused if there is no room for them. -/
theorem limitedDepths_of_lt {counts : List Nat} {limit : Nat} (hused : 2 ≤ (usedSet counts).card)
    (hroom : codeCapacity limit < (usedSet counts).card) :
    limitedDepths counts limit =
      .error (.alphabetTooLarge (usedSet counts).card (codeCapacity limit)) := by
  rw [card_usedSet] at hused hroom
  rw [limitedDepths, if_neg (Nat.not_le.2 hused), if_pos hroom, card_usedSet]

end EntropyCoding
