import EntropyCoding.Histogram.Basic
import Mathlib.Algebra.BigOperators.Group.Finset.Basic

/-!
# The counts of a histogram

Trimming takes away zeros only, so it changes neither the count of a symbol, `getD_trimmed`, nor the
number of symbols used, `countP_trimmed`, nor the sum of the counts, `sum_trimmed`.

A symbol is counted where there is room for it, `add_eq`, after storage has been made for it if needed,
`withRoom`.  Storage changes no count, so only that of the symbol grows, `count_add`.

A symbol that has been counted stays counted, whatever is counted or added later:
`Histogram.Counts` and the lemmas about it.
-/

namespace EntropyCoding

/-! ## Tables of numbers -/

/-- Counting one more at a place of a table. -/
theorem getD_modify_succ {a : Array Nat} {i : Nat} (hi : i < a.size) (j : Nat) :
    (a.modify i (· + 1)).getD j 0 = a.getD j 0 + if i = j then 1 else 0 := by
  rw [Array.getD_eq_getD_getElem?, Array.getD_eq_getD_getElem?, Array.getElem?_modify]
  split
  · next h =>
    subst h
    rw [Array.getElem?_eq_getElem hi]
    rfl
  · rfl

theorem lt_length_of_pos {l : List Nat} {i : Nat} (h : 0 < l.getD i 0) : i < l.length := by
  apply Decidable.byContradiction
  intro hge
  rw [List.getD_eq_getElem?_getD, List.getElem?_eq_none (Nat.not_lt.1 hge)] at h
  cases h

/-- A list may be summed beyond its end, where there are zeros. -/
theorem sum_eq_sum_range {l : List Nat} {n : Nat} (hn : l.length ≤ n) :
    l.sum = ∑ i ∈ Finset.range n, l.getD i 0 := by
  induction l generalizing n with
  | nil => exact (Finset.sum_eq_zero fun _ _ ↦ rfl).symm
  | cons a l ih =>
    cases n with
    | zero => cases hn
    | succ n =>
      rw [List.sum_cons, ih (Nat.le_of_succ_le_succ hn), Finset.sum_range_succ', Nat.add_comm]
      rfl

namespace Histogram

/-! ## Trimming -/

/-- Only zeros are trimmed. -/
theorem exists_trimmed_append (h : Histogram) :
    ∃ n, h.counts.toList = h.trimmed ++ List.replicate n 0 := by
  refine ⟨(h.counts.toList.reverse.takeWhile (· == 0)).length, ?_⟩
  have hzero : ∀ c ∈ h.counts.toList.reverse.takeWhile (· == 0), c = 0 := by
    intro c hc
    have := List.all_takeWhile (l := h.counts.toList.reverse) (p := (· == 0))
    exact beq_iff_eq.1 (List.all_eq_true.1 this c hc)
  rw [trimmed, ← List.reverse_replicate, ← List.reverse_append, ← List.eq_replicate_of_mem hzero,
    List.takeWhile_append_dropWhile, List.reverse_reverse]

theorem getD_counts (h : Histogram) (symbol : Nat) :
    h.counts.toList.getD symbol 0 = h.count symbol := by
  rw [count, Array.getD_eq_getD_getElem?, List.getD_eq_getElem?_getD, Array.getElem?_toList]

/-- Trimming does not change a count. -/
theorem getD_trimmed (h : Histogram) (symbol : Nat) : h.trimmed.getD symbol 0 = h.count symbol := by
  obtain ⟨n, hcounts⟩ := h.exists_trimmed_append
  rw [← getD_counts, hcounts, List.getD_eq_getElem?_getD, List.getD_eq_getElem?_getD,
    List.getElem?_append]
  split
  · rfl
  · next hge =>
    rw [List.getElem?_eq_none (Nat.not_lt.1 hge), List.getElem?_replicate]
    split <;> rfl

theorem count_mem_trimmed {h : Histogram} {symbol : Nat} (hpos : 0 < h.count symbol) :
    h.count symbol ∈ h.trimmed := by
  rw [← getD_trimmed] at hpos ⊢
  rw [List.getD_eq_getElem?_getD, List.getElem?_eq_getElem (lt_length_of_pos hpos)]
  exact List.getElem_mem _

/-- Trimming does not change how many symbols are used. -/
theorem countP_trimmed (h : Histogram) : h.trimmed.countP (0 < ·) = h.used := by
  obtain ⟨n, hcounts⟩ := h.exists_trimmed_append
  rw [used, ← Array.countP_toList, hcounts, List.countP_append, List.countP_replicate]
  rfl

/-- Trimming does not change the sum of the counts. -/
theorem sum_trimmed (h : Histogram) : h.trimmed.sum = h.counts.toList.sum := by
  obtain ⟨n, hcounts⟩ := h.exists_trimmed_append
  rw [hcounts, List.sum_append, List.sum_replicate_nat, Nat.mul_zero, Nat.add_zero]

/-! ## Counting a symbol -/

/-- A histogram with more storage counts the same. -/
theorem count_grow (h : Histogram) (size symbol : Nat) :
    (h.grow size).count symbol = h.count symbol := by
  rw [count, count, grow, Array.getD_eq_getD_getElem?, Array.getD_eq_getD_getElem?,
    Array.getElem?_append]
  split
  · rfl
  · next hge =>
    rw [Array.getElem?_eq_none (Nat.not_lt.1 hge), Array.getElem?_replicate]
    split <;> rfl

theorem size_grow (h : Histogram) (size : Nat) :
    (h.grow size).counts.size = max h.counts.size size := by
  rw [grow, Array.size_append, Array.size_replicate]
  omega

theorem lt_storageFor (symbol : Nat) : symbol < storageFor symbol := by
  unfold storageFor storageStep
  omega

/-- The histogram with storage for a symbol. -/
def withRoom (h : Histogram) (symbol : Nat) : Histogram :=
  if symbol < h.counts.size then h else h.grow (storageFor symbol)

theorem size_withRoom (h : Histogram) (symbol : Nat) : (h.withRoom symbol).counts.size =
    if symbol < h.counts.size then h.counts.size else storageFor symbol := by
  unfold withRoom
  split
  · rfl
  · next hge =>
    have := lt_storageFor symbol
    rw [size_grow, Nat.max_eq_right (by omega)]

theorem lt_size_withRoom (h : Histogram) (symbol : Nat) :
    symbol < (h.withRoom symbol).counts.size := by
  rw [size_withRoom]
  split
  · assumption
  · exact lt_storageFor symbol

theorem count_withRoom (h : Histogram) (symbol symbol' : Nat) :
    (h.withRoom symbol).count symbol' = h.count symbol' := by
  unfold withRoom
  split
  · rfl
  · exact h.count_grow _ symbol'

theorem total_withRoom (h : Histogram) (symbol : Nat) : (h.withRoom symbol).total = h.total := by
  unfold withRoom
  split <;> rfl

/-- A symbol is counted where there is room for it. -/
theorem add_eq (h : Histogram) (symbol : Nat) : h.add symbol =
    { counts := (h.withRoom symbol).counts.modify symbol (· + 1), total := h.total + 1 } :=
  congrArg (Histogram.mk _) (congrArg (· + 1) (h.total_withRoom symbol))

/-- Counting a symbol adds one to its count and nothing to the others. -/
theorem count_add (h : Histogram) (symbol symbol' : Nat) :
    (h.add symbol).count symbol' = h.count symbol' + if symbol = symbol' then 1 else 0 := by
  rw [add_eq, ← h.count_withRoom symbol symbol']
  exact getD_modify_succ (h.lt_size_withRoom symbol) symbol'

/-! ## Symbols that have been counted -/

/-- The symbol has been counted, and the total shows that something has. -/
structure Counts (h : Histogram) (symbol : Nat) : Prop where
  /-- The count of the symbol is not zero. -/
  count_pos : 0 < h.count symbol
  /-- The histogram is not empty. -/
  total_pos : 0 < h.total

namespace Counts

variable {h : Histogram} {symbol : Nat}

theorem add_self (h : Histogram) (symbol : Nat) : (h.add symbol).Counts symbol where
  count_pos := by
    rw [count_add, if_pos rfl]
    exact Nat.succ_pos _
  total_pos := by
    rw [total_add]
    exact Nat.succ_pos _

/-- A symbol stays counted when symbols are added. -/
theorem add (hc : h.Counts symbol) (symbol' : Nat) : (h.add symbol').Counts symbol where
  count_pos := by
    rw [count_add]
    exact Nat.add_pos_left hc.count_pos _
  total_pos := by
    rw [total_add]
    exact Nat.succ_pos _

theorem combine_right (hc : h.Counts symbol) (a : Histogram) : (a.combine h).Counts symbol where
  count_pos := by
    rw [count_combine]
    exact Nat.add_pos_right _ hc.count_pos
  total_pos := Nat.add_pos_right _ hc.total_pos

theorem combine_left (hc : h.Counts symbol) (b : Histogram) : (h.combine b).Counts symbol where
  count_pos := by
    rw [count_combine]
    exact Nat.add_pos_left hc.count_pos _
  total_pos := Nat.add_pos_left hc.total_pos _

theorem isEmpty_eq_false (hc : h.Counts symbol) : h.isEmpty = false :=
  beq_eq_false_iff_ne.2 (Nat.ne_of_gt hc.total_pos)

end Counts

end Histogram

end EntropyCoding
