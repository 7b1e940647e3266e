import EntropyCoding.Proofs.Histogram.Equality
import EntropyCoding.Proofs.Histogram.Sum
import Mathlib.Algebra.BigOperators.Group.Finset.Piecewise
import Mathlib.Logic.Function.Basic

/-!
# Changes of histograms

Any number of histograms, all of them empty at first, are changed one at a time: a symbol is counted,
one histogram is added to another, or a histogram is replaced by the sum of two, by given counts or by
the empty one.  Every histogram along such a run is balanced, `HistogramChange.balanced_run`, since the
total and the sum of the counts grow by the same with each change.

Counting symbols one after another is adding their histograms, so the histogram of two lists of symbols,
one behind the other, is the sum of those of the lists: `HistogramChange.run_map_add_append`.
-/

namespace EntropyCoding

namespace Histogram

variable {a b h : Histogram}

/-! ## Balanced histograms -/

/-- A histogram is balanced if the counts of all symbols that occur add up to its total. -/
theorem balanced_iff {n : Nat} (hn : h.alphabetSize ≤ n) :
    h.Balanced ↔ h.total = ∑ symbol ∈ Finset.range n, h.count symbol := by
  have hsum : h.counts.toList.sum = ∑ symbol ∈ Finset.range n, h.count symbol := by
    rw [← sum_trimmed, sum_eq_sum_range hn]
    exact Finset.sum_congr rfl fun symbol _ ↦ h.getD_trimmed symbol
  rw [Balanced, hsum]

theorem balanced_empty : empty.Balanced := rfl

theorem balanced_ofCounts (counts : List Nat) : (ofCounts counts).Balanced := rfl

/-- A sum is balanced if both histograms are. -/
theorem Balanced.combine (ha : a.Balanced) (hb : b.Balanced) : (a.combine b).Balanced := by
  -- the three sums are taken over the same symbols, so that they can be added one by one
  let n := max (a.combine b).alphabetSize (max a.alphabetSize b.alphabetSize)
  have hcombine : (a.combine b).alphabetSize ≤ n := Nat.le_max_left _ _
  have hleft : a.alphabetSize ≤ n := by omega
  have hright : b.alphabetSize ≤ n := by omega
  rw [balanced_iff hcombine, total_combine, (balanced_iff hleft).1 ha, (balanced_iff hright).1 hb,
    ← Finset.sum_add_distrib]
  exact Finset.sum_congr rfl fun symbol _ ↦ (count_combine a b symbol).symm

/-- A histogram stays balanced when a symbol is counted. -/
theorem Balanced.add (hh : h.Balanced) (symbol : Nat) : (h.add symbol).Balanced := by
  let n := max (h.add symbol).alphabetSize (max h.alphabetSize (symbol + 1))
  have hadd : (h.add symbol).alphabetSize ≤ n := Nat.le_max_left _ _
  have hbefore : h.alphabetSize ≤ n := by omega
  have hsymbol : symbol ∈ Finset.range n := Finset.mem_range.2 (by omega)
  have hone : ∑ symbol' ∈ Finset.range n, (if symbol = symbol' then 1 else 0) = 1 := by
    rw [Finset.sum_ite_eq, if_pos hsymbol]
  rw [balanced_iff hadd, total_add, (balanced_iff hbefore).1 hh]
  nth_rewrite 1 [← hone]
  rw [← Finset.sum_add_distrib]
  exact Finset.sum_congr rfl fun symbol' _ ↦ (count_add h symbol symbol').symm

end Histogram

/-- A change of one of any number of histograms. -/
inductive HistogramChange
  /-- One occurrence of a symbol is counted. -/
  | add (i symbol : Nat)
  /-- A histogram is added. -/
  | addHistogram (i other : Nat)
  /-- The histogram becomes the sum of two. -/
  | combine (i left right : Nat)
  /-- The histogram becomes that of given counts. -/
  | ofCounts (i : Nat) (counts : List Nat)
  /-- The histogram becomes empty. -/
  | clear (i : Nat)
  deriving DecidableEq, Repr

namespace HistogramChange

/-- The histogram that changes. -/
def target : HistogramChange → Nat
  | add i _ => i
  | addHistogram i _ => i
  | combine i _ _ => i
  | ofCounts i _ => i
  | clear i => i

/-- What it becomes. -/
def result (hs : Nat → Histogram) : HistogramChange → Histogram
  | add i symbol => (hs i).add symbol
  | addHistogram i other => (hs i).combine (hs other)
  | combine _ left right => (hs left).combine (hs right)
  | ofCounts _ counts => .ofCounts counts
  | clear _ => .empty

def apply (hs : Nat → Histogram) (c : HistogramChange) : Nat → Histogram :=
  Function.update hs c.target (c.result hs)

/-- The histograms after some changes, one after another. -/
def run (hs : Nat → Histogram) (changes : List HistogramChange) : Nat → Histogram :=
  changes.foldl apply hs

/-- At first nothing is counted and nothing is stored. -/
def start : Nat → Histogram := fun _ ↦ .empty

variable {hs : Nat → Histogram}

/-! ## Balance -/

theorem balanced_result (h : ∀ i, (hs i).Balanced) (c : HistogramChange) :
    (c.result hs).Balanced := by
  cases c with
  | add i symbol => exact (h i).add symbol
  | addHistogram i other => exact (h i).combine (h other)
  | combine i left right => exact (h left).combine (h right)
  | ofCounts i counts => exact Histogram.balanced_ofCounts counts
  | clear i => exact Histogram.balanced_empty

theorem balanced_apply (h : ∀ i, (hs i).Balanced) (c : HistogramChange) (i : Nat) :
    (c.apply hs i).Balanced := by
  rw [apply, Function.update_apply]
  split
  · exact balanced_result h c
  · exact h i

/-- Histograms are balanced along every run of changes. -/
theorem balanced_run (changes : List HistogramChange) (i : Nat) : (run start changes i).Balanced :=
  changes.foldlRecOn apply (motive := fun hs ↦ ∀ i, (hs i).Balanced)
    (fun _ ↦ Histogram.balanced_empty) (fun _ h c _ ↦ balanced_apply h c) i

/-! ## Lists of symbols -/

/-- Counting symbols is adding the histogram of each of them. -/
theorem run_map_add {i : Nat} (h : (hs i).Aligned) (symbols : List Nat) :
    run hs (symbols.map (add i)) i = hs i + (symbols.map Histogram.single).sum := by
  induction symbols generalizing hs with
  | nil => exact (add_zero _).symm
  | cons symbol symbols ih =>
    have happly : (add i symbol).apply hs i = (hs i).add symbol := Function.update_self ..
    have haligned : ((add i symbol).apply hs i).Aligned := happly ▸ h.add symbol
    rw [List.map_cons, List.map_cons, List.sum_cons, ← add_assoc, ← h.add_eq, ← happly]
    exact ih haligned

/-- The histogram of two lists of symbols is the sum of those of the lists. -/
theorem run_map_add_append (i : Nat) (xs ys : List Nat) :
    run start ((xs ++ ys).map (add i)) i =
      (run start (xs.map (add i)) i).combine (run start (ys.map (add i)) i) := by
  have haligned : (start i).Aligned := Histogram.aligned_zero
  have hrun : ∀ symbols : List Nat, run start (symbols.map (add i)) i =
      (symbols.map Histogram.single).sum := fun symbols ↦
    (run_map_add haligned symbols).trans (zero_add _)
  rw [hrun, hrun, hrun, List.map_append, List.sum_append, Histogram.combine_eq_add]

end HistogramChange

end EntropyCoding
