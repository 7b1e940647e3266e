import EntropyCoding.Proofs.Ans.Frequencies
import EntropyCoding.Proofs.Histogram.Counts
import EntropyCoding.Proofs.Prefix.Depths

/-!
# What the prefix code of a histogram codes

There is a prefix code for every histogram with no more symbols than a tree of the largest depth has
leaves, `PrefixCode.ofHistogram_eq_error` and `PrefixCode.used_le_of_ofHistogram`.  It has a codeword
for every symbol counted, `PrefixCode.exists_codeword_of_counts`: with two symbols or more in use
these are the leaves of the tree, and a symbol that is alone is the last one of the alphabet, for
which the degenerate code stands.
-/

namespace EntropyCoding

theorem length_usedSymbols (counts : List Nat) :
    (usedSymbols counts).length = counts.countP (0 < ·) := by
  have hfst : (fun p : Nat × Nat ↦ decide (0 < p.1)) = (fun c ↦ decide (0 < c)) ∘ Prod.fst := rfl
  rw [usedSymbols, List.length_map, ← List.countP_eq_length_filter, hfst, ← List.countP_map,
    List.zipIdx_map_fst]

/-- A symbol that occurs alone is the last one. -/
theorem EndsPositive.eq_last {counts : List Nat} (hend : EndsPositive counts)
    (hone : counts.countP (0 < ·) ≤ 1) {symbol : Nat} (hpos : 0 < counts.getD symbol 0) :
    symbol + 1 = counts.length := by
  have hlt := lt_length_of_pos hpos
  obtain ⟨init, last, rfl, hlast⟩ := hend
  rw [List.countP_append, List.countP_singleton, if_pos (decide_eq_true hlast)] at hone
  rw [List.length_append, List.length_singleton] at hlt ⊢
  rw [List.getD_eq_getElem?_getD, List.getElem?_append] at hpos
  split at hpos
  · next hinit =>
    -- the last symbol would be a second one
    rw [List.getElem?_eq_getElem hinit, Option.getD_some] at hpos
    have hother : 0 < init.countP (0 < ·) :=
      List.countP_pos_iff.2 ⟨init[symbol], List.getElem_mem hinit, decide_eq_true hpos⟩
    omega
  · omega

namespace PrefixCode

variable {h : Histogram}

/-- As many symbols occur in the counts that a code is built from as in the histogram. -/
theorem length_usedSymbols_countsOf (h : Histogram) :
    (usedSymbols (countsOf h)).length = h.used := by
  rw [length_usedSymbols, ← h.countP_trimmed, countsOf]
  split
  · next hempty =>
    rw [List.isEmpty_iff.1 hempty]
    rfl
  · rfl

/-- A histogram without a code has too many symbols in use. -/
theorem ofHistogram_eq_error {e : Error} (herror : ofHistogram h = .error e) :
    2 ^ maxDepth < h.used ∧ e = .alphabetTooLarge h.used (2 ^ maxDepth) := by
  rw [ofHistogram, limitedDepths] at herror
  rw [length_usedSymbols_countsOf] at herror
  split at herror
  · cases herror
  · split at herror
    · next hlarge =>
      cases herror
      exact ⟨hlarge, rfl⟩
    · cases herror

/-- A histogram with a code does not have too many symbols in use. -/
theorem used_le_of_ofHistogram {c : PrefixCode} (hok : ofHistogram h = .ok c) :
    h.used ≤ 2 ^ maxDepth := by
  obtain ⟨depths, hdepths, -⟩ := Except.map_eq_ok_iff.1 hok
  rw [limitedDepths] at hdepths
  rw [length_usedSymbols_countsOf] at hdepths
  split at hdepths
  · next hone => exact Nat.le_trans hone Nat.one_le_two_pow
  · split at hdepths
    · cases hdepths
    · next hroom => exact Nat.not_lt.1 hroom

/-- The code of a histogram has a codeword for every symbol that has been counted. -/
theorem exists_codeword_of_counts {c : PrefixCode} (hok : ofHistogram h = .ok c) {symbol : Nat}
    (hc : h.Counts symbol) : ∃ f, c.codeword symbol = .ok f := by
  obtain ⟨depths, hdepths, rfl⟩ := Except.map_eq_ok_iff.1 hok
  have hne : h.trimmed ≠ [] := List.ne_nil_of_mem (Histogram.count_mem_trimmed hc.count_pos)
  have hcounts : countsOf h = h.trimmed := if_neg fun hempty ↦ hne (List.isEmpty_iff.1 hempty)
  have hpos : 0 < h.trimmed.getD symbol 0 := by
    rw [h.getD_trimmed]
    exact hc.count_pos
  rw [hcounts] at hdepths
  rcases Nat.lt_or_ge 1 (usedSymbols h.trimmed).length with hused | hused
  · have hdepth := ((limitedDepths_spec hdepths hused).2.2.1 symbol).2 hpos
    rw [show depths = (canonical depths).depths.toList from rfl, getD_depths] at hdepth
    exact ⟨_, codeword_eq_ok_iff.2 (.inl ⟨hdepth, rfl⟩)⟩
  · obtain rfl := eq_replicate_of_limitedDepths hdepths hused
    rw [length_usedSymbols] at hused
    have hlast := (Histogram.endsPositive_trimmed hne).eq_last hused hpos
    have hcoded : (canonical (List.replicate h.trimmed.length 0)).coded = 0 :=
      (coded_eq_zero_iff _).2 fun d hd ↦ (List.mem_replicate.1 hd).2
    have hsize : (canonical (List.replicate h.trimmed.length 0)).alphabetSize = symbol + 1 := by
      rw [alphabetSize, canonical, List.size_toArray, List.length_replicate, hlast]
    have hsingle : (canonical (List.replicate h.trimmed.length 0)).single? = some symbol := by
      rw [single?, hsize, if_pos ⟨hcoded, Nat.succ_pos symbol⟩]
      rfl
    exact ⟨_, codeword_eq_ok_iff.2 (.inr ⟨hsingle, rfl⟩)⟩

end PrefixCode

end EntropyCoding
