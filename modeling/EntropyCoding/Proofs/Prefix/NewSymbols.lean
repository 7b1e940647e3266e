import EntropyCoding.Proofs.Prefix.Exchange
import EntropyCoding.Proofs.Prefix.Extension

/-!
# The codewords of new symbols

A symbol that joins a code with one member of the population is meant to get a long codeword.  It gets
one that is no shorter than those of the old symbols if the search for depths ends at the first floor,
`CostsLeast.depth_le_of_two_pow`: old populations are powers of two and add up to the whole code space, so
an old symbol below a new one could change places with others that are lighter.

At a higher floor new symbols weigh as much as the floor, and so do old ones whose populations are not
above it.  Among these an old symbol can get the longer codeword, `PrefixCode.extend_longer`, but it is
longer by one bit at most; no other old symbol has a longer codeword than a new one,
`PrefixCode.depth_le_of_extend`.
-/

namespace EntropyCoding

namespace CostsLeast

variable {S old : Finset Nat} {w e k : Nat → Nat} {n : Nat} (h : CostsLeast S w e)
  (hn : ∀ s ∈ S, e s ≤ n) (hold : old ⊆ S) (hsum : ∑ s ∈ old, 2 ^ k s = 2 ^ n)
include h hn hold hsum

/-- If there are other symbols than those whose weights add up to the whole code space, one of these has
less of it than its weight; there is one that is deepest. -/
theorem exists_deepest_short {b : Nat} (hb : b ∈ S) (hnew : b ∉ old) :
    ∃ i ∈ old, n - e i < k i ∧ ∀ s ∈ old, n - e s < k s → e s ≤ e i := by
  have hless : ∑ s ∈ old, 2 ^ (n - e s) < ∑ s ∈ old, 2 ^ k s := by
    rw [hsum, ← h.sum_two_pow_eq hn]
    exact Finset.sum_lt_sum_of_subset hold hb hnew (Nat.two_pow_pos _) fun _ _ _ ↦ Nat.zero_le _
  obtain ⟨c, hc, hlt⟩ := Finset.exists_lt_of_sum_lt hless
  have hshort : c ∈ old.filter fun s ↦ n - e s < k s :=
    Finset.mem_filter.2 ⟨hc, (Nat.pow_lt_pow_iff_right Nat.one_lt_two).1 hlt⟩
  obtain ⟨i, hi, hdeepest⟩ := Finset.exists_max_image _ e ⟨c, hshort⟩
  obtain ⟨hi, hki⟩ := Finset.mem_filter.1 hi
  exact ⟨i, hi, hki, fun s hs hks ↦ hdeepest s (Finset.mem_filter.2 ⟨hs, hks⟩)⟩

/-- Symbols whose weights are powers of two and add up to the whole code space are not deeper than another
symbol of weight one. -/
theorem depth_le_of_two_pow (hw : ∀ s ∈ old, w s = 2 ^ k s) {a b : Nat} (ha : a ∈ old) (hb : b ∈ S)
    (hnew : b ∉ old) (hone : w b = 1) : e a ≤ e b := by
  by_contra hdeep
  have hka : k a = 0 := by
    have hle := Nat.not_lt.1 fun hlt ↦ hdeep (h.depth_le_of_lt (hold ha) hb hlt)
    rw [hone, hw a ha] at hle
    exact Nat.eq_zero_of_not_pos fun hpos ↦
      Nat.not_le.2 (Nat.one_lt_two_pow (Nat.ne_of_gt hpos)) hle
  obtain ⟨i, hi, hki, hdeepest⟩ := h.exists_deepest_short hn hold hsum hb hnew
  have hkn : k i ≤ n := by
    have hle := Finset.single_le_sum (f := fun s ↦ 2 ^ k s) (fun _ _ ↦ Nat.zero_le _) hi
    exact (Nat.pow_le_pow_iff_right Nat.one_lt_two).1 (hle.trans_eq hsum)
  -- it can come up if the new symbol goes down, with old ones that have no less than their weights
  obtain ⟨H, hH, hHsum⟩ := exists_subset_sum_two_pow_sub_two hsum ha hka (Nat.le_add_left 1 (n - e i))
    ((Nat.succ_le_of_lt hki).trans hkn)
  have hmem : ∀ s ∈ H, s ∈ old ∧ k s < n - e i + 1 := fun s hs ↦ Finset.mem_filter.1 (hH hs)
  have hbH : b ∉ H := fun hs ↦ hnew (hmem b hs).1
  have hiH : i ∉ insert b H := by
    rw [Finset.mem_insert, not_or]
    exact ⟨fun hib ↦ hnew (hib ▸ hi), fun hs ↦ Nat.not_le.2 (hmem i hs).2 hki⟩
  have hparts : ∑ s ∈ H, 2 ^ k s ≤ ∑ s ∈ H, 2 ^ (n - e s) := by
    refine Finset.sum_le_sum fun s hs ↦ Nat.pow_le_pow_right Nat.two_pos (Nat.not_lt.1 fun hks ↦ ?_)
    obtain ⟨hs, hlt⟩ := hmem s hs
    have := hdeepest s hs hks
    omega
  have hroom : 2 ≤ 2 ^ (n - e b) := by
    have := hn a (hold ha)
    exact Nat.le_self_pow (by omega) 2
  have htwo : 2 ^ 1 ≤ 2 ^ (n - e i + 1) := Nat.pow_le_pow_right Nat.two_pos (Nat.le_add_left 1 _)
  have hle := h.sum_le_of_two_pow hn (Finset.singleton_subset_iff.2 (hold hi))
    (Finset.insert_subset hb fun s hs ↦ hold (hmem s hs).1) (Finset.disjoint_singleton_left.2 hiH) (by
      rw [Finset.sum_singleton, Finset.sum_insert hbH, ← Nat.pow_succ']
      omega)
  rw [Finset.sum_singleton, Finset.sum_insert hbH, hone, hw i hi,
    Finset.sum_congr rfl fun s hs ↦ hw s (hmem s hs).1, hHsum] at hle
  have := Nat.pow_le_pow_right Nat.two_pos (Nat.succ_le_of_lt hki)
  omega

end CostsLeast

namespace PrefixCode

variable {c c' : PrefixCode} {size : Nat}

/-! ## The counts of an extended code -/

section

variable (hd : ∀ d ∈ c.depths.toList, d ≤ maxDepth)
include hd

theorem getD_extendedCounts_of_lt {symbol : Nat} (hlt : symbol < c.alphabetSize) :
    (c.extendedCounts size).getD symbol 0 = population (c.depth symbol) := by
  have hlt' : symbol < c.depths.toList.length := hlt
  rw [extendedCounts, populations_eq hd, List.getD_append _ _ _ _ (by rwa [List.length_map]),
    List.getD_eq_getElem _ _ (by rwa [List.length_map]), List.getElem_map,
    ← List.getD_eq_getElem _ 0 hlt', getD_depths]

theorem getD_extendedCounts_of_le {symbol : Nat} (hle : c.alphabetSize ≤ symbol)
    (hlt : symbol < size) : (c.extendedCounts size).getD symbol 0 = 1 := by
  have hlen : (c.depths.toList.map population).length = c.alphabetSize := by
    rw [List.length_map]
    rfl
  rw [extendedCounts, populations_eq hd, List.getD_append_right _ _ _ _ (hlen.trans_le hle), hlen,
    List.getD_replicate _ (by omega)]

/-- All symbols of an extended code are used. -/
theorem usedSet_extendedCounts (hlarger : c.alphabetSize < size) :
    usedSet (c.extendedCounts size) = Finset.range size := by
  rw [usedSet, length_extendedCounts hd (Nat.le_of_lt hlarger), Finset.filter_eq_self]
  intro symbol hs
  rcases Nat.lt_or_ge symbol c.alphabetSize with hold | hnew
  · rw [getD_extendedCounts_of_lt hd hold]
    exact (population_mem _).1
  · rw [getD_extendedCounts_of_le hd hnew (Finset.mem_range.1 hs)]
    exact Nat.one_pos

end

theorem sum_range_population (c : PrefixCode) :
    ∑ symbol ∈ Finset.range c.alphabetSize, population (c.depth symbol) =
      (c.depths.toList.map population).sum := by
  have hmap := map_getD_range c.depths.toList (Nat.le_refl _)
  rw [List.take_length] at hmap
  conv_rhs => rw [← hmap, List.map_map]
  simp only [← getD_depths]
  rfl

/-- The floor of the weights at which the search for the depths of the extended code ends. -/
def extensionFloor (c : PrefixCode) (size : Nat) : Nat :=
  (depthsWithin (usedSymbols (c.extendedCounts size)) maxDepth).floor

/-- The weights for which the depths of an extended code cost least. -/
def extensionWeight (c : PrefixCode) (size symbol : Nat) : Nat :=
  max ((c.extendedCounts size).getD symbol 0) (c.extensionFloor size)

/-- The depths of an extended code cost least, and the floor is one at least. -/
theorem costsLeast_of_extend (h : c.extend size = .ok c') :
    CostsLeast (Finset.range size) (c.extensionWeight size) c'.depth ∧ 1 ≤ c.extensionFloor size := by
  obtain ⟨hd, hlarger, hsum, -, depths, hdepths, rfl⟩ := extend_eq_ok_iff.1 h
  have hused := usedSet_extendedCounts hd hlarger
  have hpos := alphabetSize_pos_of_sum_population hsum
  have hmany : 2 ≤ (usedSet (c.extendedCounts size)).card := by
    rw [hused, Finset.card_range]
    omega
  obtain ⟨k, hk⟩ := exists_floor_eq hdepths hmany
  constructor
  · rw [← hused, PrefixDecoder.depth_canonical]
    exact costsLeast_limitedDepths hdepths hmany
  · rw [extensionFloor, hk]
    exact Nat.two_pow_pos k

/-- A symbol that joins a code gets a codeword that is no shorter than that of an old symbol if the search
for depths ends at the first floor, or if the population of the old symbol is above the floor.  In any
case it is shorter by one bit at most. -/
theorem depth_le_of_extend (h : c.extend size = .ok c') {old new : Nat} (hold : old < c.alphabetSize)
    (hnew : c.alphabetSize ≤ new) (hlt : new < size) :
    (c.extensionFloor size = 1 ∨ c.extensionFloor size < population (c.depth old) →
      c'.depth old ≤ c'.depth new) ∧ c'.depth old ≤ c'.depth new + 1 := by
  obtain ⟨hleast, hfloor⟩ := costsLeast_of_extend h
  obtain ⟨hd, hlarger, hsum, -⟩ := extend_eq_ok_iff.1 h
  have hmem : new ∈ Finset.range size := Finset.mem_range.2 hlt
  have hmem' : old ∈ Finset.range size := Finset.mem_range.2 (hold.trans hlarger)
  have hweight : c.extensionWeight size new = c.extensionFloor size := by
    rw [extensionWeight, getD_extendedCounts_of_le hd hnew hlt, Nat.max_eq_right hfloor]
  have hweight' {symbol : Nat} (hlt : symbol < c.alphabetSize) : c.extensionWeight size symbol =
      max (population (c.depth symbol)) (c.extensionFloor size) := by
    rw [extensionWeight, getD_extendedCounts_of_lt hd hlt]
  refine ⟨?_, hleast.depth_le_succ hmem' hmem (hweight ▸ hfloor) fun s _ ↦ ?_⟩
  · rintro (hfirst | habove)
    · -- at the first floor the weights are the populations
      have hfilled := filled_of_extend h
      have hdepth : ∀ s ∈ Finset.range size, c'.depth s ≤ maxDepth := fun s hs ↦ by
        rw [Finset.mem_range, ← hfilled.alphabetSize_eq] at hs
        exact (hfilled.depth_mem _ (mem_depths_iff.2 ⟨s, hs, rfl⟩)).2
      have hsub : Finset.range c.alphabetSize ⊆ Finset.range size :=
        Finset.range_subset_range.2 (Nat.le_of_lt hlarger)
      have hpopulation : ∀ s ∈ Finset.range c.alphabetSize, c.extensionWeight size s =
          2 ^ (maxDepth - c.depth s) := fun s hs ↦ by
        rw [hweight' (Finset.mem_range.1 hs), hfirst, Nat.max_eq_left (population_mem _).1]
        rfl
      exact hleast.depth_le_of_two_pow hdepth hsub ((sum_range_population c).trans hsum) hpopulation
        (Finset.mem_range.2 hold) hmem (fun hs ↦ Nat.not_le.2 (Finset.mem_range.1 hs) hnew)
        (hweight.trans hfirst)
    · refine hleast.depth_le_of_lt hmem' hmem ?_
      rw [hweight, hweight' hold]
      exact lt_max_of_lt_left habove
  · rw [hweight, extensionWeight]
    exact Nat.le_max_right _ _

/-- Twelve symbols with codewords of 1 to 12 bits and eight with codewords of 15 bits are joined by another
one. -/
theorem extend_steep :
    (canonical [1, 2, 3, 4, 5, 6, 7, 8, 9, 10, 11, 12, 15, 15, 15, 15, 15, 15, 15, 15]).extend 21 =
      .ok (canonical
        [1, 2, 3, 4, 5, 6, 7, 8, 9, 10, 12, 12, 15, 15, 14, 14, 14, 14, 14, 14, 14]) := by
  refine extend_eq_ok_iff.2 ⟨by decide, by decide, by decide, by decide, _, ?_, rfl⟩
  cbv

/-- Symbols with populations above the floor, which is two, have no longer codewords than the new symbol,
and the others are longer by one bit at most. -/
theorem depth_le_of_extend_steep : ∃ c c' : PrefixCode,
    ofDepths [1, 2, 3, 4, 5, 6, 7, 8, 9, 10, 11, 12, 15, 15, 15, 15, 15, 15, 15, 15] = .ok c ∧
      c.extend 21 = .ok c' ∧ 11 < c.alphabetSize ∧ 12 < c.alphabetSize ∧ c.alphabetSize ≤ 20 ∧
      20 < 21 ∧ c.extensionFloor 21 < population (c.depth 11) ∧
      c'.depth 11 ≤ c'.depth 20 ∧ c'.depth 12 ≤ c'.depth 20 + 1 := by
  have hfloor : (canonical [1, 2, 3, 4, 5, 6, 7, 8, 9, 10, 11, 12, 15, 15, 15, 15, 15, 15, 15,
      15]).extensionFloor 21 = 2 := by cbv
  have habove : 2 < population ((canonical [1, 2, 3, 4, 5, 6, 7, 8, 9, 10, 11, 12, 15, 15, 15, 15, 15,
      15, 15, 15]).depth 11) := by decide
  rw [← hfloor] at habove
  exact ⟨_, _, rfl, extend_steep, by decide, by decide, by decide, by decide, habove,
    (depth_le_of_extend extend_steep (by decide) (by decide) (by decide)).1 (.inr habove),
    (depth_le_of_extend extend_steep (by decide) (by decide) (by decide)).2⟩

/-- There the new symbol gets a shorter codeword than two of the eight. -/
theorem extend_longer : ∃ c c' : PrefixCode,
    ofDepths [1, 2, 3, 4, 5, 6, 7, 8, 9, 10, 11, 12, 15, 15, 15, 15, 15, 15, 15, 15] = .ok c ∧
      c.extend 21 = .ok c' ∧ 12 < c.alphabetSize ∧ c.alphabetSize ≤ 20 ∧ 20 < 21 ∧
      ¬ c'.depth 12 ≤ c'.depth 20 :=
  ⟨_, _, rfl, extend_steep, by decide, by decide, by decide, by decide⟩

end PrefixCode

end EntropyCoding
